import LinearKernels.Proofs.UnsignedNumbers
import LinearKernels.Proofs.Signatures

/-!
Index ranges of fused loops. The items of a grid share a loop: each begins at its own place and
goes on by the size of the grid while the loop's condition holds. Counters and conditions are
unsigned numbers of 32 bits. Where none of them overflows, all items end, and together they run a
fused body at every index of the first target and at no other. A later statement of the pass is
run over the range of its own target exactly if the two targets have the same range.
-/

namespace LinearKernels

/-! ### Loops over a grid -/

/-- The numbers `m`, `m + step` and so on, below the size. -/
def strided (m step size : Nat) : List Nat :=
  (List.range (positionCount m step size)).map fun k => m + k * step

variable {m n step size : Nat}

theorem strided_of_le (hstep : 0 < step) (h : size ≤ m) : strided m step size = [] := by
  have hcount : positionCount m step size = 0 := by
    unfold positionCount
    rw [Nat.sub_eq_zero_of_le h, Nat.zero_add, Nat.div_eq_of_lt (by omega)]
  rw [strided, hcount]
  rfl

theorem strided_of_lt (hstep : 0 < step) (h : m < size) :
    strided m step size = m :: strided (m + step) step size := by
  rw [strided, strided, positionCount_add hstep h, List.range_succ_eq_map, List.map_cons,
    List.map_map, Nat.zero_mul, Nat.add_zero]
  refine congrArg _ (List.map_congr_left fun k _ => ?_)
  rw [Function.comp, Nat.succ_mul, Nat.add_comm (k * step), Nat.add_assoc]

/-- An item takes the indices in the range that are its own modulo the size of the grid. -/
theorem mem_strided_iff (hm : m < step) : n ∈ strided m step size ↔ n < size ∧ n % step = m := by
  have hstep : 0 < step := by omega
  simp only [strided, List.mem_map, List.mem_range, lt_positionCount_iff hstep]
  constructor
  · rintro ⟨k, hk, rfl⟩
    exact ⟨by omega, by rw [Nat.add_mul_mod_self_right, Nat.mod_eq_of_lt hm]⟩
  · rintro ⟨hn, rfl⟩
    have hparts : n % step + n / step * step = n := by
      rw [Nat.mul_comm]
      exact Nat.mod_add_div n step
    exact ⟨n / step, by omega, hparts⟩

/-- A run of a loop that ends, with what the body does at each value of the counter. The counter
grows by `step`, as an unsigned number, while the condition holds. -/
inductive Rounds {E : Type} (step : Nat) (cond : Nat → Prop) (body : Nat → List E → Prop) :
    Nat → List E → Prop
  | leave {n : Nat} (h : ¬ cond n) : Rounds step cond body n []
  | again {n : Nat} {events rest : List E} (h : cond n) (hbody : body n events)
      (hrest : Rounds step cond body (wrap (n + step)) rest) :
      Rounds step cond body n (events ++ rest)

/-- A loop over the numbers below a size that does not overflow ends, and takes the numbers in
strides from its start. The induction is on how far the counter is from the size. -/
theorem rounds_iff {E : Type} {cond : Nat → Prop} {body : Nat → List E → Prop}
    {f : Nat → List E} {events : List E} (hstep : 0 < step)
    (hfits : size + step ≤ 2 ^ 32) (hcond : ∀ n < size + step, cond n ↔ n < size)
    (hbody : ∀ n < size, ∀ events, body n events ↔ events = f n) (hm : m < size + step) :
    Rounds step cond body m events ↔ events = (strided m step size).flatMap f := by
  induction hk : size - m using Nat.strong_induction_on generalizing m events with
  | _ k ih =>
    by_cases hless : m < size
    · have hagain := (hcond m hm).mpr hless
      have hnext : wrap (m + step) = m + step := wrap_of_lt (by omega)
      have hrest : ∀ rest, Rounds step cond body (m + step) rest ↔
          rest = (strided (m + step) step size).flatMap f :=
        fun rest => ih (size - (m + step)) (by omega) (by omega) rfl
      rw [strided_of_lt hstep hless, List.flatMap_cons]
      constructor
      · intro h
        cases h with
        | leave h => exact absurd hagain h
        | again _ hevents h =>
          rw [hnext] at h
          rw [(hbody m hless _).mp hevents, (hrest _).mp h]
      · rintro rfl
        refine .again hagain ((hbody m hless _).mpr rfl) ?_
        rw [hnext]
        exact (hrest _).mpr rfl
    · have hleave : ¬ cond m := fun h => hless ((hcond m hm).mp h)
      rw [strided_of_le hstep (Nat.le_of_not_lt hless)]
      constructor
      · intro h
        cases h with
        | leave => rfl
        | again h => exact absurd h hleave
      · rintro rfl
        exact .leave hleave

namespace Code

/-- What an item does in a run that ends: the texts that it evaluates, each with the values of the
loop indices around it, outermost first. Elementwise bodies consist of loops over the grid,
sequences and evaluations. -/
def Traces (grid item : Nat → Nat) : Values → Code → List (String × List (String × Nat)) → Prop
  | _, .skip, events => events = []
  | _, .eval text, events => events = [(text, [])]
  | ρ, .seq first second, events =>
    ∃ before after, Traces grid item ρ first before ∧ Traces grid item ρ second after ∧
      events = before ++ after
  | ρ, .gridLoop axis index bound body, events =>
    Rounds (grid axis) (fun n => (ρ.set index n).Meets ⟨item 0, grid 0⟩ bound)
      (fun n events => ∃ inner, Traces grid item (ρ.set index n) body inner ∧
        events = inner.map fun e => (e.1, (index, n) :: e.2))
      (wrap (item axis)) events
  | _, _, _ => False

/-- The run of every item of the grid ends. -/
def Ends (grid : Nat → Nat) (ρ : Values) (code : Code) : Prop :=
  ∀ item : Nat → Nat, (∀ axis, item axis < grid axis) → ∃ events, code.Traces grid item ρ events

/-- Some item of the grid evaluates the text at these values of the loop indices. -/
def Visits (grid : Nat → Nat) (ρ : Values) (code : Code) (text : String)
    (indices : List (String × Nat)) :
    Prop :=
  ∃ item : Nat → Nat, (∀ axis, item axis < grid axis) ∧
    ∃ events, code.Traces grid item ρ events ∧ (text, indices) ∈ events

variable {grid item : Nat → Nat} {ρ : Values} {events : List (String × List (String × Nat))}

/-- A sequence of evaluations. -/
theorem traces_texts_iff {texts : List String} :
    (ofList (texts.map .eval)).Traces grid item ρ events ↔ events = texts.map (·, []) := by
  induction texts generalizing events with
  | nil => exact Iff.rfl
  | cons text texts ih =>
    constructor
    · rintro ⟨before, after, rfl, hafter, rfl⟩
      rw [ih.mp hafter]
      rfl
    · rintro rfl
      exact ⟨_, _, rfl, ih.mpr rfl, rfl⟩

/-- A loop whose condition bounds its index by a size. -/
theorem traces_gridLoop_iff {axis : Nat} {index bound : String} {body : Code}
    {f : Nat → List (String × List (String × Nat))} (hitem : item axis < grid axis)
    (hfits : size + grid axis ≤ 2 ^ 32)
    (hbound : ∀ n < size + grid axis, (ρ.set index n).Meets ⟨item 0, grid 0⟩ bound ↔ n < size)
    (hbody : ∀ n < size, ∀ inner, body.Traces grid item (ρ.set index n) inner ↔ inner = f n) :
    (gridLoop axis index bound body).Traces grid item ρ events ↔
      events = (strided (item axis) (grid axis) size).flatMap fun n =>
        (f n).map fun e => (e.1, (index, n) :: e.2) := by
  have hstart : wrap (item axis) = item axis := wrap_of_lt (by omega)
  rw [Traces, hstart]
  refine rounds_iff (by omega) hfits hbound (fun n hn events => ?_) (by omega)
  simp only [hbody n hn, exists_eq_left]

theorem mem_loop_iff {ns : List Nat} {index text : String}
    {f : Nat → List (String × List (String × Nat))} {indices : List (String × Nat)} :
    (text, indices) ∈ ns.flatMap (fun n => (f n).map fun e => (e.1, (index, n) :: e.2)) ↔
      ∃ n ∈ ns, ∃ rest, (text, rest) ∈ f n ∧ indices = (index, n) :: rest := by
  simp only [List.mem_flatMap, List.mem_map, Prod.mk.injEq, Prod.exists]
  grind

theorem mem_texts_iff {texts : List String} {text : String} {indices : List (String × Nat)} :
    (text, indices) ∈ texts.map (·, []) ↔ text ∈ texts ∧ indices = [] := by
  simp [eq_comm]

/-- What is known of all items at once. -/
theorem ends_and_visits_iff {code : Code} {f : (Nat → Nat) → List (String × List (String × Nat))}
    (h : ∀ item, (∀ axis, item axis < grid axis) → ∀ events, code.Traces grid item ρ events ↔
      events = f item) :
    code.Ends grid ρ ∧ ∀ text indices, code.Visits grid ρ text indices ↔
      ∃ item : Nat → Nat, (∀ axis, item axis < grid axis) ∧ (text, indices) ∈ f item := by
  refine ⟨fun item hitem => ⟨f item, (h item hitem _).mpr rfl⟩, fun text indices => ?_⟩
  constructor
  · rintro ⟨item, hitem, events, htraces, hmem⟩
    rw [(h item hitem events).mp htraces] at hmem
    exact ⟨item, hitem, hmem⟩
  · rintro ⟨item, hitem, hmem⟩
    exact ⟨item, hitem, _, (h item hitem _).mpr rfl, hmem⟩

end Code

/-! ### Logical sizes -/

/-- The logical size: no dimension for a scalar, the length of a vector, the rows and the
columns of a matrix. -/
def Storage.logicalSize (s : Storage) (ρ : Values) (name : String) : List Nat :=
  match s with
  | .hostScalar | .deviceScalar => []
  | .vector _ => [ρ (vectorSize name)]
  | .matrix l => [(l.size ρ name).1, (l.size ρ name).2]

def Argument.logicalSize (ρ : Values) (reg : Registry) (a : Argument) :
    Except Fault (List Nat) := do
  return a.storage.logicalSize ρ (← a.name reg)

/-- Index values that select an element: the row index is below the first dimension, the
column index below the second. -/
def Inside : List Nat → List (String × Nat) → Prop
  | [], [] => True
  | [n], [(x, i)] => x = rowIndex ∧ i < n
  | [m, n], [(x, i), (y, j)] => (x = rowIndex ∧ i < m) ∧ (y = colIndex ∧ j < n)
  | _, _ => False

theorem inside_one_iff {n : Nat} {indices : List (String × Nat)} :
    Inside [n] indices ↔ ∃ i, indices = [(rowIndex, i)] ∧ i < n := by
  rcases indices with _ | ⟨⟨x, i⟩, _ | ⟨_, _⟩⟩ <;> simp [Inside]

theorem inside_two_iff {m n : Nat} {indices : List (String × Nat)} :
    Inside [m, n] indices ↔ ∃ i j, indices = [(rowIndex, i), (colIndex, j)] ∧ i < m ∧ j < n := by
  rcases indices with _ | ⟨⟨x, i⟩, _ | ⟨⟨y, j⟩, _ | ⟨_, _⟩⟩⟩ <;> simp [Inside]
  grind

/-- All items end, and together they evaluate the texts at the indices inside the size. -/
structure Code.Sweeps (grid : Nat → Nat) (ρ : Values) (code : Code) (texts : List String)
    (size : List Nat) :
    Prop where
  ends : code.Ends grid ρ
  visits : ∀ text indices, code.Visits grid ρ text indices ↔ text ∈ texts ∧ Inside size indices

/-- Two vectors have the same range if they have the same length. -/
theorem inside_one_eq_iff {m n : Nat} :
    (∀ indices, Inside [m] indices ↔ Inside [n] indices) ↔ m = n := by
  constructor
  · intro h
    have hrange : ∀ i, i < m ↔ i < n := by
      intro i
      have hi := h [(rowIndex, i)]
      simpa [Inside] using hi
    have hm := hrange m
    have hn := hrange n
    omega
  · rintro rfl indices
    rfl

/-- Two matrices have the same range if they have the same size, or no elements at all. -/
theorem inside_two_eq_iff {m n m' n' : Nat} :
    (∀ indices, Inside [m, n] indices ↔ Inside [m', n'] indices) ↔
      (m = m' ∧ n = n') ∨ ((m = 0 ∨ n = 0) ∧ (m' = 0 ∨ n' = 0)) := by
  constructor
  · intro h
    have hrange : ∀ i j, i < m ∧ j < n ↔ i < m' ∧ j < n' := by
      intro i j
      have hij := h [(rowIndex, i), (colIndex, j)]
      simpa [Inside] using hij
    -- The last element of each of the two lies in the other.
    have h₁ := hrange (m - 1) (n - 1)
    have h₂ := hrange (m' - 1) (n' - 1)
    omega
  · intro h indices
    rw [inside_two_iff, inside_two_iff]
    constructor
    · rintro ⟨i, j, rfl, hi, hj⟩
      exact ⟨i, j, rfl, by omega, by omega⟩
    · rintro ⟨i, j, rfl, hi, hj⟩
      exact ⟨i, j, rfl, by omega, by omega⟩

/-! ### Loops of a pass -/

/-- The loops over an argument do not overflow: not even the counters behind its last index, one
for each item, nor the positions that the conditions compute from them. -/
def Storage.LoopFits (s : Storage) (grid : Nat → Nat) (ρ : Values) (name : String) : Prop :=
  match s with
  | .hostScalar | .deviceScalar => True
  | .vector _ => ρ (vectorSize name) + grid 0 ≤ 2 ^ 32
  | .matrix l =>
    (l.position ρ name ((l.size ρ name).1 + grid 0 - 1) ((l.size ρ name).2 + grid 1 - 1)).Fits

instance (s : Storage) (grid : Nat → Nat) (ρ : Values) (name : String) :
    Decidable (s.LoopFits grid ρ name) :=
  match s with
  | .hostScalar | .deviceScalar => .isTrue trivial
  | .vector _ => inferInstanceAs (Decidable (_ ≤ _))
  | .matrix _ => inferInstanceAs (Decidable (_ < _ ∧ _ < _))

/-- The counters of both loops are unsigned numbers if the position behind the last is. -/
theorem Layout.counters_fit (l : Layout) {grid : Nat → Nat} {ρ : Values}
    {name : String} (hinc : ρ.Strided name) {rows cols : Nat} (hgrid : ∀ axis, 0 < grid axis)
    (hfits : (l.position ρ name (rows + grid 0 - 1) (cols + grid 1 - 1)).Fits) :
    rows + grid 0 ≤ 2 ^ 32 ∧ cols + grid 1 ≤ 2 ^ 32 := by
  have below : ∀ {k inc start : Nat}, 0 < inc → k * inc + start < 2 ^ 32 → k < 2 ^ 32 :=
    fun hpos hlt =>
      Nat.lt_of_le_of_lt (Nat.le_trans (Nat.le_mul_of_pos_right _ hpos) (Nat.le_add_right ..)) hlt
  have hfirst := hgrid 0
  have hsecond := hgrid 1
  unfold Position.Fits position at hfits
  cases ht : l.transposed with
  | true =>
    simp only [ht, if_true] at hfits
    have hrows := below hinc.2 hfits.2
    have hcols := below hinc.1 hfits.1
    omega
  | false =>
    simp only [ht, Bool.false_eq_true, if_false] at hfits
    have hrows := below hinc.1 hfits.1
    have hcols := below hinc.2 hfits.2
    omega

namespace Plan

variable {grid : Nat → Nat} {ρ : Values} {name text : String} {texts : List String}
  {indices : List (String × Nat)}

/-- The items run the lines of a vector loop at every index of the vector, and no other. -/
theorem vectorLoop_sweeps (hgrid : ∀ axis, 0 < grid axis) (hρ : ρ.Fits) (hname : IsParameter name)
    (hfits : ρ (vectorSize name) + grid 0 ≤ 2 ^ 32) :
    (vectorLoop (rowIndex ++ " < " ++ vectorSize name) (.ofList (texts.map .eval))).Sweeps
      grid ρ texts [ρ (vectorSize name)] := by
  have hsize : AllWord "_size" := by decide
  have hbound : ∀ (w : WorkItem), ∀ n < ρ (vectorSize name) + grid 0,
      (ρ.set rowIndex n).Meets w (rowIndex ++ " < " ++ vectorSize name) ↔
        n < ρ (vectorSize name) := by
    intro w n hn
    rw [vectorSize,
      (hρ.set rowIndex (by omega)).meets_less_iff isName_rowIndex (hname.isName_append hsize),
      Values.set_same, hname.set_append ρ parameterWords_rowIndex n hsize]
  obtain ⟨hends, hvisits⟩ := Code.ends_and_visits_iff fun item hitem events =>
    Code.traces_gridLoop_iff (hitem 0) hfits (hbound ⟨item 0, grid 0⟩) fun n _ inner =>
      Code.traces_texts_iff
  refine ⟨hends, fun text indices => (hvisits text indices).trans ?_⟩
  simp only [Code.mem_loop_iff, Code.mem_texts_iff, inside_one_iff]
  constructor
  · rintro ⟨item, hitem, n, hn, _, ⟨hmem, rfl⟩, rfl⟩
    exact ⟨hmem, n, rfl, ((mem_strided_iff (hitem 0)).mp hn).1⟩
  · rintro ⟨hmem, n, rfl, hlt⟩
    have hitem : ∀ axis, n % grid axis < grid axis := fun axis => Nat.mod_lt n (hgrid axis)
    exact ⟨_, hitem, n, (mem_strided_iff (hitem 0)).mpr ⟨hlt, rfl⟩, [], ⟨hmem, rfl⟩, rfl⟩

/-- The items run the lines of matrix loops at every index of the matrix, and no other. -/
theorem matrixLoops_sweeps (hgrid : ∀ axis, 0 < grid axis) (hρ : ρ.Fits)
    (hname : IsParameter name) (l : Layout) (hinc : ρ.Strided name)
    (hfits : (l.position ρ name ((l.size ρ name).1 + grid 0 - 1)
      ((l.size ρ name).2 + grid 1 - 1)).Fits) :
    (matrixLoops (l.rowsBound name rowIndex, l.colsBound name colIndex)
        (.ofList (texts.map .eval))).Sweeps grid ρ texts
      [(l.size ρ name).1, (l.size ρ name).2] := by
  obtain ⟨hrowsFit, hcolsFit⟩ := l.counters_fit hinc hgrid hfits
  have hinc' : ∀ n, (ρ.set rowIndex n).Strided name := hinc.set hname parameterWords_rowIndex
  have hrows : ∀ (w : WorkItem), ∀ n < (l.size ρ name).1 + grid 0,
      (ρ.set rowIndex n).Meets w (l.rowsBound name rowIndex) ↔ n < (l.size ρ name).1 := by
    intro w n hn
    have hplace : (l.position (ρ.set rowIndex n) name (ρ.set rowIndex n rowIndex) 0).Fits := by
      rw [Values.set_same, l.position_set hname parameterWords_rowIndex]
      exact Layout.fits_mono hfits (by omega) (Nat.zero_le _)
    rw [Layout.meets_rowsBound_iff (hρ.set rowIndex (by omega)) hname isName_rowIndex
      (hinc' n) l hplace, l.size_set hname parameterWords_rowIndex, Values.set_same]
  have hcols : ∀ (w : WorkItem), ∀ m < (l.size ρ name).1, ∀ n < (l.size ρ name).2 + grid 1,
      ((ρ.set rowIndex m).set colIndex n).Meets w (l.colsBound name colIndex) ↔
        n < (l.size ρ name).2 := by
    intro w m hm n hn
    have hplace : (l.position ((ρ.set rowIndex m).set colIndex n) name 0
        ((ρ.set rowIndex m).set colIndex n colIndex)).Fits := by
      rw [Values.set_same, l.position_set hname parameterWords_colIndex,
        l.position_set hname parameterWords_rowIndex]
      exact Layout.fits_mono hfits (Nat.zero_le _) (by omega)
    have hset := (hρ.set rowIndex (n := m) (by omega)).set colIndex (n := n) (by omega)
    rw [Layout.meets_colsBound_iff hset hname isName_colIndex
        ((hinc' m).set hname parameterWords_colIndex n) l hplace,
      l.size_set hname parameterWords_colIndex, l.size_set hname parameterWords_rowIndex,
      Values.set_same]
  obtain ⟨hends, hvisits⟩ := Code.ends_and_visits_iff fun item hitem events =>
    Code.traces_gridLoop_iff (hitem 0) hrowsFit (hrows ⟨item 0, grid 0⟩) fun i hi inner =>
      Code.traces_gridLoop_iff (hitem 1) hcolsFit (hcols ⟨item 0, grid 0⟩ i hi) fun j _ inner =>
        Code.traces_texts_iff
  refine ⟨hends, fun text indices => (hvisits text indices).trans ?_⟩
  simp only [Code.mem_loop_iff, Code.mem_texts_iff, inside_two_iff]
  constructor
  · rintro ⟨item, hitem, i, hi, _, ⟨j, hj, _, ⟨hmem, rfl⟩, rfl⟩, rfl⟩
    exact ⟨hmem, i, j, rfl, ((mem_strided_iff (hitem 0)).mp hi).1,
      ((mem_strided_iff (hitem 1)).mp hj).1⟩
  · rintro ⟨hmem, i, j, rfl, hi, hj⟩
    let item : Nat → Nat := fun axis => (if axis = 0 then i else j) % grid axis
    have hitem : ∀ axis, item axis < grid axis := fun axis => Nat.mod_lt _ (hgrid axis)
    exact ⟨item, hitem, i, (mem_strided_iff (hitem 0)).mpr ⟨hi, rfl⟩, _,
      ⟨j, (mem_strided_iff (hitem 1)).mpr ⟨hj, rfl⟩, [], ⟨hmem, rfl⟩, rfl⟩, rfl⟩

/-- The logical size of the target of statement `s`. -/
def targetSize (plan : Plan) (ρ : Values) (s : Nat) : Except Fault (List Nat) := do
  (← plan.target s).logicalSize ρ plan.registry

/-- All vectors that statement `s` uses have one logical size, and so have all matrices. -/
def Conformable (plan : Plan) (ρ : Values) (s : Nat) : Prop :=
  ∀ tree, plan.tree s = .ok tree → ∀ a ∈ tree.arguments, ∀ b ∈ tree.arguments, a.shape = b.shape →
    a.logicalSize ρ plan.registry = b.logicalSize ρ plan.registry

/-- All matrices that statement `s` uses have positive increments. -/
def Strided (plan : Plan) (ρ : Values) (s : Nat) : Prop :=
  ∀ tree, plan.tree s = .ok tree → ∀ a ∈ tree.arguments, a.shape = .matrix →
    ∀ name, a.name plan.registry = .ok name → ρ.Strided name

/-- The loops over the target of statement `s` do not overflow. -/
def LoopFits (plan : Plan) (grid : Nat → Nat) (ρ : Values) (s : Nat) : Prop :=
  ∀ target, plan.target s = .ok target → ∀ name, target.name plan.registry = .ok name →
    target.storage.LoopFits grid ρ name

instance {ε α : Type} {x : Except ε α} {p : α → Prop} [DecidablePred p] :
    Decidable (∀ a, x = .ok a → p a) :=
  match x with
  | .error _ => isTrue fun _ h => nomatch h
  | .ok a => decidable_of_iff (p a) ⟨fun h _ ha => Except.ok.inj ha ▸ h, fun h => h a rfl⟩

instance (plan : Plan) (ρ : Values) (s : Nat) : Decidable (plan.Conformable ρ s) :=
  inferInstanceAs (Decidable (∀ tree, plan.tree s = .ok tree → _))

instance (plan : Plan) (ρ : Values) (s : Nat) : Decidable (plan.Strided ρ s) :=
  inferInstanceAs (Decidable (∀ tree, plan.tree s = .ok tree → _))

instance (plan : Plan) (grid : Nat → Nat) (ρ : Values) (s : Nat) :
    Decidable (plan.LoopFits grid ρ s) :=
  inferInstanceAs (Decidable (∀ target, plan.target s = .ok target → _))

/-- The kernel of the pass ends, and runs statement `s` at exactly the indices of the argument. -/
def Covers (plan : Plan) (localSize : Nat) (grid : Nat → Nat) (ρ : Values) (pass : Pass) (s : Nat)
    (a : Argument) : Prop :=
  ∃ body tree text size, plan.body localSize pass = .ok body ∧ plan.tree s = .ok tree ∧
    tree.code plan.registry pass.index = .ok text ∧ a.logicalSize ρ plan.registry = .ok size ∧
    body.Ends grid ρ ∧ ∀ indices, body.Visits grid ρ text indices ↔ Inside size indices

variable {env : Declarations} {plan : Plan} {pass : Pass}

theorem logicalSize_eq_ok_iff {a : Argument} {reg : Registry} {size : List Nat} :
    a.logicalSize ρ reg = .ok size ↔
      ∃ r, a.info reg = .ok r ∧ a.storage.logicalSize ρ r.name = size := by
  unfold Argument.logicalSize Argument.name
  cases h : a.info reg with
  | error e => simp
  | ok r => simp [Outcome.ok_bind, pure, Except.pure]

/-- The lines of the statements of a pass. -/
theorem exists_texts {code : Code} (h : plan.bodies pass = .ok code) :
    ∃ texts : List String, code = .ofList (texts.map .eval) ∧ ∀ s ∈ pass.statements, ∃ tree text,
      plan.tree s = .ok tree ∧ tree.code plan.registry pass.index = .ok text ∧ text ∈ texts := by
  obtain ⟨texts, htexts, h⟩ := Outcome.bind_eq_ok_iff.mp h
  obtain rfl := Except.ok.inj h
  refine ⟨texts, rfl, fun s hs => ?_⟩
  obtain ⟨-, -, hall⟩ := Outcome.mapM_zip htexts htexts
  obtain ⟨⟨text, _⟩, hzip, hcode, -⟩ := hall s hs
  obtain ⟨tree, htree, htext⟩ := Outcome.bind_eq_ok_iff.mp hcode
  exact ⟨tree, text, htree, htext, (List.of_mem_zip hzip).1⟩

/-- The statements of a vector or matrix pass assign vectors or matrices. -/
theorem Runs.target_shape (h : plan.Runs env pass) {s : Nat} (hs : s ∈ pass.statements)
    {target : Argument} (htarget : plan.target s = .ok target) :
    (pass.kind = .vector → target.shape = .vector) ∧
    (pass.kind = .matrix → target.shape = .matrix) := by
  obtain ⟨tree, op, target', value, htree, hbody, hfits, -⟩ := h.statement s hs
  obtain rfl := Except.ok.inj ((target_ok htree hbody).symm.trans htarget)
  constructor
  · intro hkind
    rw [hkind] at hfits
    exact hfits.1
  · intro hkind
    rw [hkind] at hfits
    exact hfits.1

/-- The pass is run over the given size: its kernel ends, and evaluates each of its statements at
the indices of that size. -/
structure RunsOver (plan : Plan) (grid : Nat → Nat) (ρ : Values) (pass : Pass) (body : Code)
    (size : List Nat) :
    Prop where
  ends : body.Ends grid ρ
  visits : ∀ s ∈ pass.statements, ∃ tree text, plan.tree s = .ok tree ∧
    tree.code plan.registry pass.index = .ok text ∧
    ∀ indices, body.Visits grid ρ text indices ↔ Inside size indices

/-- A body over the lines of the statements. -/
theorem runsOver_of_sweeps {body : Code} {texts : List String} {size : List Nat}
    (h : body.Sweeps grid ρ texts size)
    (htexts : ∀ s ∈ pass.statements, ∃ tree text, plan.tree s = .ok tree ∧
      tree.code plan.registry pass.index = .ok text ∧ text ∈ texts) :
    plan.RunsOver grid ρ pass body size := by
  refine ⟨h.ends, fun s hs => ?_⟩
  obtain ⟨tree, text, htree, htext, hmem⟩ := htexts s hs
  exact ⟨tree, text, htree, htext, fun indices => (h.visits text indices).trans
    (and_iff_right hmem)⟩

theorem Runs.vectorBody_runsOver (h : plan.Runs env pass) (hkind : pass.kind = .vector)
    (hgrid : ∀ axis, 0 < grid axis) (hρ : ρ.Fits)
    (hfits : ∀ s ∈ pass.statements.head?, plan.LoopFits grid ρ s) {body : Code}
    (hcode : plan.vectorBody pass = .ok body) :
    ∃ first target size, pass.statements.head? = some first ∧ plan.target first = .ok target ∧
      target.logicalSize ρ plan.registry = .ok size ∧ plan.RunsOver grid ρ pass body size := by
  obtain ⟨first, hfirst, hcode⟩ := Outcome.bind_eq_ok_iff.mp hcode
  obtain ⟨target, htarget, hcode⟩ := Outcome.bind_eq_ok_iff.mp hcode
  obtain ⟨bound, hbound, hcode⟩ := Outcome.bind_eq_ok_iff.mp hcode
  obtain ⟨bodies, hbodies, hcode⟩ := Outcome.bind_eq_ok_iff.mp hcode
  obtain ⟨name, hname, hbound⟩ := Outcome.bind_eq_ok_iff.mp hbound
  obtain ⟨r, hr, hrname⟩ := Outcome.bind_eq_ok_iff.mp hname
  obtain rfl := Except.ok.inj hrname
  obtain rfl := Except.ok.inj hbound
  obtain rfl := Except.ok.inj hcode
  obtain ⟨texts, rfl, htexts⟩ := exists_texts hbodies
  have hhead := head?_of_firstStatement hfirst
  have hshape := (h.target_shape (List.mem_of_mem_head? hhead) htarget).1 hkind
  obtain ⟨v, hv⟩ : ∃ v, target.storage = .vector v := by
    cases hs : target.storage <;> simp_all [Argument.shape, Storage.shape]
  have hfit := hfits first hhead target htarget _ hname
  rw [hv] at hfit
  exact ⟨first, target, [ρ (vectorSize r.name)], hhead, htarget,
    logicalSize_eq_ok_iff.mpr ⟨r, hr, by rw [hv]; rfl⟩,
    runsOver_of_sweeps (vectorLoop_sweeps hgrid hρ r.isParameter_name hfit) htexts⟩

theorem Runs.matrixBody_runsOver (h : plan.Runs env pass) (hgrid : ∀ axis, 0 < grid axis)
    (hρ : ρ.Fits) (hfits : ∀ s ∈ pass.statements.head?, plan.LoopFits grid ρ s)
    (hinc : ∀ s ∈ pass.statements, plan.Strided ρ s) {body : Code}
    (hcode : plan.matrixBody pass = .ok body) :
    ∃ first target size, pass.statements.head? = some first ∧ plan.target first = .ok target ∧
      target.logicalSize ρ plan.registry = .ok size ∧ plan.RunsOver grid ρ pass body size := by
  obtain ⟨first, hfirst, hcode⟩ := Outcome.bind_eq_ok_iff.mp hcode
  obtain ⟨target, htarget, hcode⟩ := Outcome.bind_eq_ok_iff.mp hcode
  obtain ⟨bounds, hbounds, hcode⟩ := Outcome.bind_eq_ok_iff.mp hcode
  obtain ⟨bodies, hbodies, hcode⟩ := Outcome.bind_eq_ok_iff.mp hcode
  obtain ⟨l, hl, hbounds⟩ := Outcome.bind_eq_ok_iff.mp hbounds
  obtain ⟨name, hname, hbounds⟩ := Outcome.bind_eq_ok_iff.mp hbounds
  obtain ⟨r, hr, hrname⟩ := Outcome.bind_eq_ok_iff.mp hname
  obtain rfl := Except.ok.inj hrname
  obtain rfl := Except.ok.inj hbounds
  obtain rfl := Except.ok.inj hcode
  obtain ⟨texts, rfl, htexts⟩ := exists_texts hbodies
  have hhead := head?_of_firstStatement hfirst
  have hmatrix := layoutOf_eq_ok hl
  have hstrided : ρ.Strided r.name := by
    have hmem := List.mem_of_mem_head? hhead
    obtain ⟨tree, op, target', value, htree, hbodyOf, -⟩ := h.statement first hmem
    obtain rfl := Except.ok.inj ((target_ok htree hbodyOf).symm.trans htarget)
    exact hinc first hmem tree htree target' hbodyOf.target_mem
      (by rw [Argument.shape, hmatrix]; rfl) _ hname
  have hfit := hfits first hhead target htarget _ hname
  rw [hmatrix] at hfit
  exact ⟨first, target, [(l.size ρ r.name).1, (l.size ρ r.name).2], hhead, htarget,
    logicalSize_eq_ok_iff.mpr ⟨r, hr, by rw [hmatrix]; rfl⟩,
    runsOver_of_sweeps (matrixLoops_sweeps hgrid hρ r.isParameter_name l hstrided hfit) htexts⟩

theorem Built.fused_runs {statements : List Statement} {d : Draft}
    (h : plan.Built env statements d) (hpass : pass ∈ plan.passes)
    (hkind : pass.kind = .vector ∨ pass.kind = .matrix) :
    plan.Runs env pass := by
  obtain ⟨p, hp⟩ := List.mem_iff_getElem?.mp hpass
  refine h.runs hp ?_
  rcases hkind with hkind | hkind <;> rw [hkind] <;> decide

/-- A fused kernel is run over the size of its first target. -/
theorem Built.runsOver_first {statements : List Statement} {d : Draft}
    (h : plan.Built env statements d)
    (hpass : pass ∈ plan.passes) (hkind : pass.kind = .vector ∨ pass.kind = .matrix)
    (localSize : Nat) (hgrid : ∀ axis, 0 < grid axis) (hρ : ρ.Fits)
    (hfits : ∀ s ∈ pass.statements.head?, plan.LoopFits grid ρ s)
    (hinc : ∀ s ∈ pass.statements, plan.Strided ρ s) :
    ∃ body first target size, plan.body localSize pass = .ok body ∧
      pass.statements.head? = some first ∧
      plan.target first = .ok target ∧ target.logicalSize ρ plan.registry = .ok size ∧
      plan.RunsOver grid ρ pass body size := by
  obtain ⟨body, hbody⟩ := h.body_ok hpass localSize
  have hruns := h.fused_runs hpass hkind
  rcases hkind with hkind | hkind
  · have hvector : plan.vectorBody pass = .ok body := by
      rw [← hbody, Plan.body, hkind]
    obtain ⟨first, target, size, hhead, htarget, hsize, hover⟩ :=
      hruns.vectorBody_runsOver hkind hgrid hρ hfits hvector
    exact ⟨body, first, target, size, hbody, hhead, htarget, hsize, hover⟩
  · have hmatrix : plan.matrixBody pass = .ok body := by
      rw [← hbody, Plan.body, hkind]
    obtain ⟨first, target, size, hhead, htarget, hsize, hover⟩ :=
      hruns.matrixBody_runsOver hgrid hρ hfits hinc hmatrix
    exact ⟨body, first, target, size, hbody, hhead, htarget, hsize, hover⟩

theorem targetSize_eq {s : Nat} {target : Argument}
    {size : List Nat} (htarget : plan.target s = .ok target)
    (hsize : target.logicalSize ρ plan.registry = .ok size) : plan.targetSize ρ s = .ok size := by
  rw [targetSize, htarget, Outcome.ok_bind, hsize]

theorem Built.runsOver_targetSize {statements : List Statement} {d : Draft}
    (h : plan.Built env statements d) (hpass : pass ∈ plan.passes)
    (hkind : pass.kind = .vector ∨ pass.kind = .matrix) (localSize : Nat)
    (hgrid : ∀ axis, 0 < grid axis) (hρ : ρ.Fits) (hinc : ∀ s ∈ pass.statements, plan.Strided ρ s)
    {first : Nat} {size : List Nat} (hhead : pass.statements.head? = some first)
    (hfits : plan.LoopFits grid ρ first) (hsize : plan.targetSize ρ first = .ok size) :
    ∃ body, plan.body localSize pass = .ok body ∧ plan.RunsOver grid ρ pass body size := by
  have hfirst : ∀ s ∈ pass.statements.head?, plan.LoopFits grid ρ s := by
    intro s hs
    obtain rfl := Option.some.inj (hhead.symm.trans hs)
    exact hfits
  obtain ⟨body, first', target, size', hbody, hhead', htarget, hsize', hover⟩ :=
    h.runsOver_first hpass hkind localSize hgrid hρ hfirst hinc
  obtain rfl := Option.some.inj (hhead.symm.trans hhead')
  obtain rfl := Except.ok.inj (hsize.symm.trans (targetSize_eq htarget hsize'))
  exact ⟨body, hbody, hover⟩

end Plan

/-- Two arguments of one shape have the same range if they have the same logical size, or no
elements at all. -/
theorem Storage.inside_eq_iff {ρ : Values} {s s' : Storage} (h : s.shape = s'.shape)
    (name name' : String) :
    (∀ indices, Inside (s.logicalSize ρ name) indices ↔ Inside (s'.logicalSize ρ name') indices) ↔
      s'.logicalSize ρ name' = s.logicalSize ρ name ∨
        (0 ∈ s'.logicalSize ρ name' ∧ 0 ∈ s.logicalSize ρ name) := by
  cases s with
  | hostScalar | deviceScalar =>
    cases s' with
    | hostScalar | deviceScalar => simp [logicalSize]
    | vector | matrix => cases h
  | vector v =>
    cases s' with
    | vector v' =>
      simp only [logicalSize, inside_one_eq_iff, List.cons.injEq, and_true, List.mem_singleton]
      omega
    | hostScalar | deviceScalar | matrix => cases h
  | matrix l =>
    cases s' with
    | matrix l' =>
      simp only [logicalSize, inside_two_eq_iff, List.cons.injEq, and_true, List.mem_cons,
        List.not_mem_nil, or_false]
      omega
    | hostScalar | deviceScalar | vector => cases h

namespace Plan

variable {grid : Nat → Nat} {ρ : Values} {plan : Plan} {pass : Pass} {s : Nat}

theorem covers_iff {localSize : Nat} {a : Argument} {body : Code} {tree : Term} {text : String}
    {size : List Nat} (hbody : plan.body localSize pass = .ok body)
    (htree : plan.tree s = .ok tree) (htext : tree.code plan.registry pass.index = .ok text)
    (hsize : a.logicalSize ρ plan.registry = .ok size) :
    plan.Covers localSize grid ρ pass s a ↔
      body.Ends grid ρ ∧ ∀ indices, body.Visits grid ρ text indices ↔ Inside size indices := by
  constructor
  · rintro ⟨body', tree', text', size', hbody', htree', htext', hsize', h⟩
    obtain rfl := Except.ok.inj (hbody.symm.trans hbody')
    obtain rfl := Except.ok.inj (htree.symm.trans htree')
    obtain rfl := Except.ok.inj (htext.symm.trans htext')
    obtain rfl := Except.ok.inj (hsize.symm.trans hsize')
    exact h
  · intro h
    exact ⟨body, tree, text, size, hbody, htree, htext, hsize, h⟩

/-- A statement that is run over a size is run over the range of an argument exactly if that
has the same range. -/
theorem RunsOver.covers_iff {localSize : Nat} {a b : Argument}
    {body : Code} {size size' : List Nat} (h : plan.RunsOver grid ρ pass body size)
    (hbody : plan.body localSize pass = .ok body) (hs : s ∈ pass.statements)
    (hshape : b.shape = a.shape) (hb : b.logicalSize ρ plan.registry = .ok size)
    (ha : a.logicalSize ρ plan.registry = .ok size') :
    plan.Covers localSize grid ρ pass s a ↔ size' = size ∨ (0 ∈ size' ∧ 0 ∈ size) := by
  obtain ⟨tree, text, htree, htext, hvisits⟩ := h.visits s hs
  rw [Plan.covers_iff hbody htree htext ha, and_iff_right h.ends]
  simp only [hvisits]
  obtain ⟨r, -, rfl⟩ := logicalSize_eq_ok_iff.mp hb
  obtain ⟨r', -, rfl⟩ := logicalSize_eq_ok_iff.mp ha
  exact Storage.inside_eq_iff hshape r.name r'.name

end Plan

/-- A fused vector or matrix kernel whose loops do not overflow ends, and runs each of its
statements over the range of the first target. So it covers a conformable statement, with all its
vectors or matrices, exactly if the statement's own target has the logical size of the first one,
or both are empty. -/
theorem fused_loop_covers_iff {lowering planning : Settings} {file : SourceFile}
    {statements : List Statement}
    {plan : Plan} {pass : Pass} (hlower : file.lower lowering = .ok statements)
    (hplan : schedule planning statements = .ok plan) (hpass : pass ∈ plan.passes)
    (hkind : pass.kind = .vector ∨ pass.kind = .matrix) (localSize : Nat) {grid : Nat → Nat}
    (hgrid : ∀ axis, 0 < grid axis) {ρ : Values} (hρ : ρ.Fits)
    (hinc : ∀ s ∈ pass.statements, plan.Strided ρ s)
    (hfits : ∀ s ∈ pass.statements.head?, plan.LoopFits grid ρ s)
    (hconformable : ∀ s ∈ pass.statements, plan.Conformable ρ s) :
    ∃ first size, pass.statements.head? = some first ∧ plan.targetSize ρ first = .ok size ∧
      ∀ s ∈ pass.statements, ∃ tree target size', plan.tree s = .ok tree ∧
        plan.target s = .ok target ∧ target ∈ tree.arguments ∧ plan.targetSize ρ s = .ok size' ∧
        ∀ a ∈ tree.arguments, a.shape = target.shape →
          (plan.Covers localSize grid ρ pass s a ↔ size' = size ∨ (0 ∈ size' ∧ 0 ∈ size)) := by
  obtain ⟨-, env, -, hlawful⟩ := SourceFile.lower_lawful hlower
  obtain ⟨d, hbuilt⟩ := Plan.built_of_schedule hplan hlawful
  have hruns := hbuilt.fused_runs hpass hkind
  obtain ⟨body, first, target₁, size, hbody, hhead, htarget₁, hsize, hover⟩ :=
    hbuilt.runsOver_first hpass hkind localSize hgrid hρ hfits hinc
  refine ⟨first, size, hhead, Plan.targetSize_eq htarget₁ hsize, fun s hs => ?_⟩
  obtain ⟨tree, op, target, value, htree, hbodyOf, -, -, hplaced, -⟩ := hruns.statement s hs
  have htarget := Plan.target_ok htree hbodyOf
  have hmem := hbodyOf.target_mem
  obtain ⟨r, hr⟩ := (hplaced target hmem).bound.info_ok
  have hsize' : target.logicalSize ρ plan.registry = .ok (target.storage.logicalSize ρ r.name) :=
    Plan.logicalSize_eq_ok_iff.mpr ⟨r, hr, rfl⟩
  refine ⟨tree, target, _, htree, htarget, hmem, Plan.targetSize_eq htarget hsize',
    fun a ha hshape => ?_⟩
  have hsame : target₁.shape = target.shape := by
    have hfirst := hruns.target_shape (List.mem_of_mem_head? hhead) htarget₁
    have hlater := hruns.target_shape hs htarget
    rcases hkind with hkind | hkind
    · rw [hfirst.1 hkind, hlater.1 hkind]
    · rw [hfirst.2 hkind, hlater.2 hkind]
  refine hover.covers_iff hbody hs (hsame.trans hshape.symm) hsize ?_
  rw [← hsize']
  exact hconformable s hs tree htree a ha target hmem hshape

/-- Values for some names; all other names have the value one. -/
def Values.ofList (entries : List (String × Nat)) : Values :=
  fun w => (entries.lookup w).getD 1

theorem Values.fits_ofList {entries : List (String × Nat)}
    (h : entries.all (·.2 < 2 ^ 32) = true) :
    (Values.ofList entries).Fits := by
  intro name
  unfold Values.ofList
  induction entries with
  | nil => exact Nat.one_lt_two_pow (by decide)
  | cons entry entries ih =>
    obtain ⟨hentry, hentries⟩ := Bool.and_eq_true_iff.mp h
    rw [List.lookup_cons]
    split
    · exact of_decide_eq_true hentry
    · exact ih hentries

/-- Matrices of two layouts in one kernel. -/
def layoutsSource : String :=
  "matrix a; matrix<trans> b; matrix c; a = b; b = a; c = c;"

/-- Two rows and three columns for the first two matrices, three of each for the last. -/
def layoutsSizes : Values :=
  .ofList [("arg0_row_inc", 2), ("arg0_internal_size1", 5), ("arg0_internal_size2", 4),
    ("arg1_internal_size1", 4), ("arg1_internal_size2", 3), ("arg2_internal_size1", 4),
    ("arg2_internal_size2", 4)]

/-- The first two statements are covered, and the third one is not. -/
theorem fused_loop_covers_iff_layouts :
    ∃ plan pass, planSource .standard layoutsSource = .ok plan ∧ plan.passes = [pass] ∧
      pass = ⟨0, .matrix, [0, 1, 2], none⟩ ∧ layoutsSizes.Fits ∧
      (∀ s ∈ pass.statements, plan.Strided layoutsSizes s) ∧
      plan.LoopFits (· + 2) layoutsSizes 0 ∧
      (∀ s ∈ pass.statements, plan.Conformable layoutsSizes s) ∧
      (∀ s ∈ [0, 1], ∃ target, plan.target s = .ok target ∧
        plan.Covers 128 (· + 2) layoutsSizes pass s target) ∧
      ∃ target, plan.target 2 = .ok target ∧
        ¬ plan.Covers 128 (· + 2) layoutsSizes pass 2 target := by
  obtain ⟨plan, hplan, hvalues⟩ := Outcome.exists_ok_of_any
    (x := planSource .standard layoutsSource)
    (p := fun plan => plan.passes = [⟨0, .matrix, [0, 1, 2], none⟩] &&
      ([0, 1, 2].all fun s => plan.Strided layoutsSizes s) &&
      plan.LoopFits (· + 2) layoutsSizes 0 &&
      ([0, 1, 2].all fun s => plan.Conformable layoutsSizes s) &&
      plan.targetSize layoutsSizes 0 = .ok [2, 3] &&
      plan.targetSize layoutsSizes 1 = .ok [2, 3] && plan.targetSize layoutsSizes 2 = .ok [3, 3])
    (by decide +kernel)
  simp only [Bool.and_eq_true, decide_eq_true_eq, List.all_eq_true] at hvalues
  obtain ⟨⟨⟨⟨⟨⟨hpasses, hstrided⟩, hfits⟩, hconformable⟩, hsize₀⟩, hsize₁⟩, hsize₂⟩ := hvalues
  obtain ⟨file, statements, -, hlower, -, hschedule⟩ := planSource_eq_ok_iff.mp hplan
  have hgrid : ∀ axis : Nat, 0 < axis + 2 := fun axis => by omega
  have hvalues : layoutsSizes.Fits := Values.fits_ofList (by decide)
  have hfirstFits : ∀ s ∈ [0, 1, 2].head?, plan.LoopFits (· + 2) layoutsSizes s := by
    rintro _ ⟨⟩
    exact hfits
  obtain ⟨first, size, hfirst, hsize, hcovers⟩ := fused_loop_covers_iff hlower hschedule
    (by rw [hpasses]; exact List.mem_singleton_self _)
      (.inr rfl) 128 hgrid hvalues hstrided hfirstFits hconformable
  obtain rfl := Option.some.inj hfirst
  obtain rfl := Except.ok.inj (hsize.symm.trans hsize₀)
  refine ⟨plan, _, hplan, hpasses, rfl, hvalues, hstrided, hfits, hconformable,
    fun s hs => ?_, ?_⟩
  · obtain ⟨tree, target, size, -, htarget, hmem, hsize, hiff⟩ := hcovers s (by grind)
    have hsame : size = [2, 3] := by grind
    exact ⟨target, htarget, (hiff target hmem rfl).mpr (.inl hsame)⟩
  · obtain ⟨tree, target, size, -, htarget, hmem, hsize, hiff⟩ := hcovers 2 (by decide)
    obtain rfl := Except.ok.inj (hsize.symm.trans hsize₂)
    refine ⟨target, htarget, fun h => ?_⟩
    exact absurd ((hiff target hmem rfl).mp h) (by decide)

/-- Two statements that share a kernel and no vector. -/
def unequalSource : String :=
  "vector a, b, c, d; a = b; c = d;"

/-- The second target has an element more than the first. -/
def longerSizes : Values :=
  .ofList [("arg2_size", 2), ("arg3_size", 2)]

/-- The second target has an element less than the first. -/
def shorterSizes : Values :=
  .ofList [("arg0_size", 2), ("arg1_size", 2)]

/-- Each statement is conformable, and yet the last element of a longer target is left out, and
a shorter target is indexed past its end. -/
theorem fused_targets_differ :
    ∃ plan pass body tree text target, planSource .standard unequalSource = .ok plan ∧
      plan.passes = [pass] ∧
      pass = ⟨0, .vector, [0, 1], none⟩ ∧ plan.body 128 pass = .ok body ∧ plan.tree 1 = .ok tree ∧
      tree.code plan.registry pass.index = .ok text ∧ plan.target 1 = .ok target ∧
      ((∀ s ∈ pass.statements, plan.Conformable longerSizes s) ∧ body.Ends (· + 2) longerSizes ∧
        target.logicalSize longerSizes plan.registry = .ok [2] ∧ Inside [2] [(rowIndex, 1)] ∧
        ¬ body.Visits (· + 2) longerSizes text [(rowIndex, 1)]) ∧
      ((∀ s ∈ pass.statements, plan.Conformable shorterSizes s) ∧ body.Ends (· + 2) shorterSizes ∧
        target.logicalSize shorterSizes plan.registry = .ok [1] ∧ ¬ Inside [1] [(rowIndex, 1)] ∧
        body.Visits (· + 2) shorterSizes text [(rowIndex, 1)]) := by
  obtain ⟨plan, hplan, hvalues⟩ := Outcome.exists_ok_of_any
    (x := planSource .standard unequalSource)
    (p := fun plan => plan.passes = [⟨0, .vector, [0, 1], none⟩] &&
      ([longerSizes, shorterSizes].all fun ρ => plan.LoopFits (· + 2) ρ 0 &&
        [0, 1].all fun s => plan.Strided ρ s && plan.Conformable ρ s) &&
      plan.targetSize longerSizes 0 = .ok [1] && plan.targetSize longerSizes 1 = .ok [2] &&
      plan.targetSize shorterSizes 0 = .ok [2] && plan.targetSize shorterSizes 1 = .ok [1])
    (by decide +kernel)
  simp only [Bool.and_eq_true, decide_eq_true_eq, List.all_eq_true] at hvalues
  obtain ⟨⟨⟨⟨⟨hpasses, hsizes⟩, hlong₀⟩, hlong₁⟩, hshort₀⟩, hshort₁⟩ := hvalues
  obtain ⟨hlong, hlonger⟩ := hsizes longerSizes (by simp)
  obtain ⟨hshort, hshorter⟩ := hsizes shorterSizes (by simp)
  obtain ⟨file, statements, -, hlower, -, hschedule⟩ := planSource_eq_ok_iff.mp hplan
  obtain ⟨-, env, -, hlawful⟩ := SourceFile.lower_lawful hlower
  obtain ⟨d, hbuilt⟩ := Plan.built_of_schedule hschedule hlawful
  have hpass : ⟨0, .vector, [0, 1], none⟩ ∈ plan.passes := by
    rw [hpasses]
    exact List.mem_singleton_self _
  have hgrid : ∀ axis : Nat, 0 < axis + 2 := fun axis => by omega
  have hlongValues : longerSizes.Fits := Values.fits_ofList (by decide)
  have hshortValues : shorterSizes.Fits := Values.fits_ofList (by decide)
  obtain ⟨body, hbody, hover⟩ := hbuilt.runsOver_targetSize hpass (.inl rfl) 128 hgrid hlongValues
    (fun s hs => (hlonger s hs).1) rfl hlong hlong₀
  obtain ⟨body', hbody', hover'⟩ := hbuilt.runsOver_targetSize hpass
    (.inl rfl) 128 hgrid hshortValues (fun s hs => (hshorter s hs).1) rfl hshort hshort₀
  obtain ⟨tree, text, htree, htext, hvisits⟩ := hover.visits 1 (by decide)
  obtain ⟨tree', text', htree', htext', hvisits'⟩ := hover'.visits 1 (by decide)
  obtain rfl := Except.ok.inj (hbody.symm.trans hbody')
  obtain rfl := Except.ok.inj (htree.symm.trans htree')
  obtain rfl := Except.ok.inj (htext.symm.trans htext')
  obtain ⟨target, htarget, hsize⟩ := Outcome.bind_eq_ok_iff.mp hlong₁
  obtain ⟨target', htarget', hsize'⟩ := Outcome.bind_eq_ok_iff.mp hshort₁
  obtain rfl := Except.ok.inj (htarget.symm.trans htarget')
  refine ⟨plan, _, body, tree, text, target, hplan, hpasses, rfl, hbody, htree, htext, htarget,
    ⟨fun s hs => (hlonger s hs).2, hover.ends, hsize, ?_, ?_⟩,
    ⟨fun s hs => (hshorter s hs).2, hover'.ends, hsize', ?_, ?_⟩⟩
  · simp [Inside]
  · simp [hvisits, Inside]
  · simp [Inside]
  · simp [hvisits', Inside]

end LinearKernels
