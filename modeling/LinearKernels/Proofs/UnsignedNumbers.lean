import LinearKernels.Proofs.KernelExpressions
import Mathlib.Algebra.Group.Nat.Defs

/-!
Whole numbers of a kernel text. An expression is read exactly, or as a kernel computes it, in
unsigned numbers of 32 bits. Sums and products of the two readings differ by a multiple of
`2 ^ 32`, and they are the same number where the exact one fits. The conditions of loops compare
unsigned numbers.
-/

namespace LinearKernels

/-- The unsigned number of 32 bits that a whole number becomes. -/
def wrap (n : Nat) : Nat :=
  n % 2 ^ 32

theorem wrap_lt (n : Nat) : wrap n < 2 ^ 32 :=
  Nat.mod_lt n (by decide)

theorem wrap_of_lt {n : Nat} (h : n < 2 ^ 32) : wrap n = n :=
  Nat.mod_eq_of_lt h

theorem wrap_add (m n : Nat) : wrap (wrap m + wrap n) = wrap (m + n) :=
  (Nat.add_mod ..).symm

theorem wrap_mul (m n : Nat) : wrap (wrap m * wrap n) = wrap (m * n) :=
  (Nat.mul_mod ..).symm

/-- All values are unsigned numbers. -/
def Values.Fits (ρ : Values) : Prop :=
  ∀ name, ρ name < 2 ^ 32

theorem Values.Fits.set {ρ : Values} (h : ρ.Fits) (name : String) {n : Nat} (hn : n < 2 ^ 32) :
    (ρ.set name n).Fits := by
  intro x
  unfold Values.set
  split
  · exact hn
  · exact h x

/-- An item of a grid with one dimension that is a single work group. -/
structure WorkItem where
  id : Nat
  size : Nat

/-- What an item is told about itself. -/
def WorkItem.ask? (w : WorkItem) : String → Option Nat
  | "get_global_id" | "get_local_id" => some w.id
  | "get_global_size" => some w.size
  | _ => none

namespace CodeExpr

/-- The whole number that an expression stands for, if every number is made to fit in this way. -/
def number? (fit : Nat → Nat) (w : WorkItem) (ρ : Values) : CodeExpr → Option Nat
  | .word text => some (fit (ρ.word text))
  | .call f (.word "0") => (w.ask? f).map fit
  | .binary .add lhs rhs => do return fit ((← lhs.number? fit w ρ) + (← rhs.number? fit w ρ))
  | .binary .mul lhs rhs => do return fit ((← lhs.number? fit w ρ) * (← rhs.number? fit w ρ))
  | .binary .div lhs rhs => do
    let n ← rhs.number? fit w ρ
    if n = 0 then none else return fit ((← lhs.number? fit w ρ) / n)
  | _ => none

/-- The exact reading. -/
def index? (w : WorkItem) (ρ : Values) (e : CodeExpr) : Option Nat :=
  e.number? id w ρ

/-- The reading in unsigned numbers. -/
def unsigned? (w : WorkItem) (ρ : Values) (e : CodeExpr) : Option Nat :=
  e.number? wrap w ρ

/-- Whether a comparison of unsigned numbers holds. -/
def holds? (w : WorkItem) (ρ : Values) : CodeExpr → Option Bool
  | .binary .less lhs rhs => do return (← lhs.unsigned? w ρ) < (← rhs.unsigned? w ρ)
  | .binary .greater lhs rhs => do return (← rhs.unsigned? w ρ) < (← lhs.unsigned? w ρ)
  | .binary .equal lhs rhs => do return (← lhs.unsigned? w ρ) = (← rhs.unsigned? w ρ)
  | _ => none

/-- An expression in which nothing is divided. -/
def Undivided : CodeExpr → Prop
  | .binary .div _ _ => False
  | .binary _ lhs rhs => lhs.Undivided ∧ rhs.Undivided
  | _ => True

variable {w : WorkItem} {ρ : Values} {e lhs rhs : CodeExpr} {m n : Nat}

theorem number?_call (fit : Nat → Nat) (f : String) (e : CodeExpr) :
    (call f e).number? fit w ρ = if e = word "0" then (w.ask? f).map fit else none := by
  by_cases he : e = word "0"
  · rw [if_pos he, he, number?]
  · rw [if_neg he, number?]
    all_goals simp_all

/-- What is added and multiplied in unsigned numbers can as well be reduced at the end. -/
theorem unsigned?_eq_map (h : e.Undivided) : e.unsigned? w ρ = (e.index? w ρ).map wrap := by
  unfold unsigned? index?
  induction e with
  | word | element | neg => rfl
  | call f argument ih =>
    rw [number?_call, number?_call]
    split <;> simp
  | binary op lhs rhs ihl ihr =>
    cases op with
    | add =>
      simp only [number?, ihl h.1, ihr h.2]
      cases lhs.number? id w ρ <;> cases rhs.number? id w ρ <;> simp [wrap_add]
    | mul =>
      simp only [number?, ihl h.1, ihr h.2]
      cases lhs.number? id w ρ <;> cases rhs.number? id w ρ <;> simp [wrap_mul]
    | div => exact h.elim
    | comma | assign | addAssign | subAssign | divAssign | equal | less | greater | sub => rfl

theorem unsigned?_of_index? (h : e.Undivided) (hn : e.index? w ρ = some n) (hfits : n < 2 ^ 32) :
    e.unsigned? w ρ = some n := by
  rw [unsigned?_eq_map h, hn, Option.map_some, wrap_of_lt hfits]

theorem unsigned?_word {text : String} (hn : ρ.word text = n) (hfits : n < 2 ^ 32) :
    (word text).unsigned? w ρ = some n := by
  rw [unsigned?, number?, hn, wrap_of_lt hfits]

theorem unsigned?_name {text : String} (h : IsName text) (hn : ρ text = n) (hfits : n < 2 ^ 32) :
    (word text).unsigned? w ρ = some n :=
  unsigned?_word ((h.value ρ).trans hn) hfits

theorem unsigned?_add (hl : lhs.unsigned? w ρ = some m) (hr : rhs.unsigned? w ρ = some n)
    (hfits : m + n < 2 ^ 32) :
    (binary .add lhs rhs).unsigned? w ρ = some (m + n) := by
  unfold unsigned? at hl hr ⊢
  simp [number?, hl, hr, wrap_of_lt hfits]

theorem unsigned?_mul (hl : lhs.unsigned? w ρ = some m) (hr : rhs.unsigned? w ρ = some n)
    (hfits : m * n < 2 ^ 32) :
    (binary .mul lhs rhs).unsigned? w ρ = some (m * n) := by
  unfold unsigned? at hl hr ⊢
  simp [number?, hl, hr, wrap_of_lt hfits]

theorem unsigned?_div (hl : lhs.unsigned? w ρ = some m) (hr : rhs.unsigned? w ρ = some n)
    (hpos : 0 < n) (hfits : m < 2 ^ 32) : (binary .div lhs rhs).unsigned? w ρ = some (m / n) := by
  have hquotient : m / n < 2 ^ 32 := Nat.lt_of_le_of_lt (Nat.div_le_self m n) hfits
  unfold unsigned? at hl hr ⊢
  simp [number?, hl, hr, wrap_of_lt hquotient, Nat.pos_iff_ne_zero.mp hpos]

theorem holds?_less (hl : lhs.unsigned? w ρ = some m) (hr : rhs.unsigned? w ρ = some n) :
    (binary .less lhs rhs).holds? w ρ = some (decide (m < n)) := by
  simp [holds?, hl, hr]

theorem holds?_greater (hl : lhs.unsigned? w ρ = some m) (hr : rhs.unsigned? w ρ = some n) :
    (binary .greater lhs rhs).holds? w ρ = some (decide (n < m)) := by
  simp [holds?, hl, hr]

theorem holds?_equal (hl : lhs.unsigned? w ρ = some m) (hr : rhs.unsigned? w ρ = some n) :
    (binary .equal lhs rhs).holds? w ρ = some (decide (m = n)) := by
  simp [holds?, hl, hr]

end CodeExpr

/-! ### Conditions of loops -/

namespace Values

/-- Whether the text is a condition that holds for the item. -/
def Meets (ρ : Values) (w : WorkItem) (text : String) : Prop :=
  ∃ e, CodeExpr.ofTokens? (codeTokens text) = some e ∧ e.holds? w ρ = some true

variable {ρ : Values} {w : WorkItem} {index size : String}

theorem meets_iff {text : String} {e : CodeExpr}
    (he : CodeExpr.ofTokens? (codeTokens text) = some e) :
    ρ.Meets w text ↔ e.holds? w ρ = some true := by
  refine ⟨fun ⟨e', he', h⟩ => ?_, fun h => ⟨e, he, h⟩⟩
  obtain rfl := Option.some.inj (he.symm.trans he')
  exact h

theorem Fits.unsigned?_name (hρ : ρ.Fits) {text : String} (h : IsName text) :
    (CodeExpr.word text).unsigned? w ρ = some (ρ text) :=
  CodeExpr.unsigned?_name h rfl (hρ text)

/-- The condition of a loop over the elements of a vector. -/
theorem Fits.meets_less_iff (hρ : ρ.Fits) (hi : IsName index) (hsize : IsName size) :
    ρ.Meets w (index ++ " < " ++ size) ↔ ρ index < ρ size := by
  have hread : CodeExpr.ofTokens? (codeTokens (index ++ " < " ++ size)) =
      some (.binary .less (.word index) (.word size)) := by
    rw [codeTokens_less hi.toIsWord hsize.toIsWord]
    rfl
  rw [meets_iff hread, CodeExpr.holds?_less (hρ.unsigned?_name hi) (hρ.unsigned?_name hsize)]
  simp

/-- The condition of a loop over rows or columns. -/
theorem Fits.meets_affine_iff (hρ : ρ.Fits) {inc start : String} (hi : IsName index)
    (hinc : IsName inc) (hstart : IsName start) (hsize : IsName size)
    (hfits : ρ index * ρ inc + ρ start < 2 ^ 32) :
    ρ.Meets w (index ++ "*" ++ inc ++ "+" ++ start ++ " < " ++ size) ↔
      ρ index * ρ inc + ρ start < ρ size := by
  have hread :
      CodeExpr.ofTokens? (codeTokens (index ++ "*" ++ inc ++ "+" ++ start ++ " < " ++ size)) =
      some (.binary .less (.binary .add (.binary .mul (.word index) (.word inc)) (.word start))
        (.word size)) := by
    rw [codeTokens_affine hi.toIsWord hinc.toIsWord hstart.toIsWord hsize.toIsWord]
    rfl
  have hproduct :=
    CodeExpr.unsigned?_mul (w := w) (hρ.unsigned?_name hi) (hρ.unsigned?_name hinc) (by omega)
  have hsum := CodeExpr.unsigned?_add hproduct (hρ.unsigned?_name hstart) hfits
  rw [meets_iff hread, CodeExpr.holds?_less hsum (hρ.unsigned?_name hsize)]
  simp

end Values

/-- Both parts of the position are unsigned numbers. -/
def Position.Fits (p : Position) : Prop :=
  p.row < 2 ^ 32 ∧ p.col < 2 ^ 32

namespace Layout

variable {l : Layout} {ρ : Values} {w : WorkItem} {name index : String}

theorem fits_mono {i j i' j' : Nat} (h : (l.position ρ name i j).Fits)
    (hi : i' ≤ i) (hj : j' ≤ j) :
    (l.position ρ name i' j').Fits := by
  have below : ∀ {k k' : Nat} (inc start : Nat), k' ≤ k → k * inc + start < 2 ^ 32 →
      k' * inc + start < 2 ^ 32 :=
    fun inc start hk hlt => Nat.lt_of_le_of_lt
      (Nat.add_le_add_right (Nat.mul_le_mul_right inc hk) start) hlt
  refine ⟨below _ _ ?_ h.1, below _ _ ?_ h.2⟩ <;> split <;> assumption

theorem position_set (l : Layout) (hname : IsParameter name)
    (hindex : parameterWords index = []) (n i j : Nat) :
    l.position (ρ.set index n) name i j = l.position ρ name i j := by
  simp only [position, hname.set_matrixParameters ρ hindex n]

section

variable (hρ : ρ.Fits) (hname : IsParameter name) (hi : IsName index) (hinc : ρ.Strided name)

include hρ hname hi hinc

theorem meets_rowBound_iff (hfits : ρ index * ρ (rowInc name) + ρ (rowStart name) < 2 ^ 32) :
    ρ.Meets w (rowBound name index) ↔
      ρ index < positionCount (ρ (rowStart name)) (ρ (rowInc name)) (ρ (internalSize1 name)) := by
  rw [lt_positionCount_iff hinc.1]
  exact hρ.meets_affine_iff hi (hname.isName_append (by decide))
    (hname.isName_append (by decide)) (hname.isName_append (by decide)) hfits

theorem meets_colBound_iff (hfits : ρ index * ρ (colInc name) + ρ (colStart name) < 2 ^ 32) :
    ρ.Meets w (colBound name index) ↔
      ρ index < positionCount (ρ (colStart name)) (ρ (colInc name)) (ρ (internalSize2 name)) := by
  rw [lt_positionCount_iff hinc.2]
  exact hρ.meets_affine_iff hi (hname.isName_append (by decide))
    (hname.isName_append (by decide)) (hname.isName_append (by decide)) hfits

/-- The condition of a loop over logical rows. -/
theorem meets_rowsBound_iff (l : Layout) {j : Nat}
    (hfits : (l.position ρ name (ρ index) j).Fits) :
    ρ.Meets w (l.rowsBound name index) ↔ ρ index < (l.size ρ name).1 := by
  unfold rowsBound size
  cases ht : l.transposed with
  | true => exact meets_colBound_iff hρ hname hi hinc (by simpa [position, ht] using hfits.2)
  | false => exact meets_rowBound_iff hρ hname hi hinc (by simpa [position, ht] using hfits.1)

/-- The condition of a loop over logical columns. -/
theorem meets_colsBound_iff (l : Layout) {i : Nat}
    (hfits : (l.position ρ name i (ρ index)).Fits) :
    ρ.Meets w (l.colsBound name index) ↔ ρ index < (l.size ρ name).2 := by
  unfold colsBound size
  cases ht : l.transposed with
  | true => exact meets_rowBound_iff hρ hname hi hinc (by simpa [position, ht] using hfits.1)
  | false => exact meets_colBound_iff hρ hname hi hinc (by simpa [position, ht] using hfits.2)

end

end Layout

end LinearKernels
