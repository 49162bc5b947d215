import LinearKernels.Proofs.IndexExpressions

/-!
Where the elements of a matrix lie. The offset text of a matrix is a sum over two positions, of
which one is multiplied by a size. If both loop conditions hold, both positions lie below
their sizes, so the offset lies in the buffer; and it tells the two positions, hence the two
indices, if the increments are positive. Transposition and storage order change which text
belongs to which position, and nothing else.
-/

namespace LinearKernels

/-- The value of a text that is a sum. -/
def Values.index? (ρ : Values) (text : String) : Option Nat :=
  ρ.sum? (codeTokens text)

/-- A word with a letter at its end is a name. -/
theorem AllWord.isName_append {name sfx : String} (h : AllWord name) (hsfx : AllWord sfx)
    (hletters : sfx.toList.all Char.isDigit = false) : IsName (name ++ sfx) := by
  refine ⟨⟨?_, allWord_append.mpr ⟨h, hsfx⟩⟩, ?_⟩
  · intro hnil
    rw [String.toList_append, List.append_eq_nil_iff] at hnil
    rw [hnil.2] at hletters
    cases hletters
  · rw [String.toList_append, List.all_append, hletters, Bool.and_false]

/-- All size parameters of a matrix are names. -/
theorem AllWord.isName_of_mem {name w : String} (h : AllWord name)
    (hw : w ∈ matrixParameters name) : IsName w := by
  simp only [matrixParameters, List.mem_cons, List.not_mem_nil, or_false] at hw
  rcases hw with rfl | rfl | rfl | rfl | rfl | rfl <;>
    exact h.isName_append (by decide) (by decide +kernel)

/-! ### Offsets of a layout -/

/-- A matrix element as the buffer has it: the position along the rows and along the columns. -/
structure Position where
  row : Nat
  col : Nat

namespace Layout

/-- The position of the logical element `(i, j)`. -/
def position (l : Layout) (ρ : Values) (name : String) (i j : Nat) : Position where
  row := (if l.transposed then j else i) * ρ (rowInc name) + ρ (rowStart name)
  col := (if l.transposed then i else j) * ρ (colInc name) + ρ (colStart name)

/-- The condition of both loops over the logical elements, for the indices `i` and `j`. -/
def InBounds (l : Layout) (ρ : Values) (name i j : String) : Prop :=
  ρ.Holds (l.rowsBound name i) ∧ ρ.Holds (l.colsBound name j)

variable {l : Layout} {ρ : Values} {name i j : String}

theorem holds_rowBound_iff_lt (hname : AllWord name) (hi : IsWord i) :
    ρ.Holds (rowBound name i) ↔ ρ.word i * ρ (rowInc name) + ρ (rowStart name) <
      ρ (internalSize1 name) :=
  Values.holds_affine_iff hi (hname.isName_of_mem (by simp [matrixParameters]))
    (hname.isName_of_mem (by simp [matrixParameters]))
      (hname.isName_of_mem (by simp [matrixParameters]))

theorem holds_colBound_iff_lt (hname : AllWord name) (hj : IsWord j) :
    ρ.Holds (colBound name j) ↔ ρ.word j * ρ (colInc name) + ρ (colStart name) <
      ρ (internalSize2 name) :=
  Values.holds_affine_iff hj (hname.isName_of_mem (by simp [matrixParameters]))
    (hname.isName_of_mem (by simp [matrixParameters]))
      (hname.isName_of_mem (by simp [matrixParameters]))

/-- The loop conditions bound the position by the sizes of the buffer. -/
theorem inBounds_iff (hname : AllWord name) (hi : IsWord i) (hj : IsWord j) :
    l.InBounds ρ name i j ↔
      (l.position ρ name (ρ.word i) (ρ.word j)).row < ρ (internalSize1 name) ∧
        (l.position ρ name (ρ.word i) (ρ.word j)).col < ρ (internalSize2 name) := by
  cases ht : l.transposed with
  | true =>
    simp only [InBounds, rowsBound, colsBound, position, ht, if_true,
      holds_colBound_iff_lt hname hi, holds_rowBound_iff_lt hname hj]
    exact and_comm
  | false =>
    simp only [InBounds, rowsBound, colsBound, position, ht, Bool.false_eq_true, if_false,
      holds_rowBound_iff_lt hname hi, holds_colBound_iff_lt hname hj]

/-- The offset of a position in the buffer. -/
def flatten (l : Layout) (ρ : Values) (name : String) (p : Position) : Nat :=
  if l.rowMajor then p.row * ρ (internalSize2 name) + p.col else p.row +
    p.col * ρ (internalSize1 name)

/-- The offset text denotes the offset of the position, for indices that are expressions. -/
theorem denotes_offset (l : Layout) {a b : Nat} (hname : AllWord name) (hi : ρ.Denotes .sum i a)
    (hj : ρ.Denotes .sum j b) :
    ρ.Denotes .sum (l.offset name i j) (l.flatten ρ name (l.position ρ name a b)) := by
  have hrow : ρ.Denotes .sum (rowPosition name (if l.transposed then j else i))
      (l.position ρ name a b).row := by
    unfold rowPosition position
    split <;> exact Values.Denotes.position ‹_› (hname.isName_of_mem (by simp [matrixParameters]))
      (hname.isName_of_mem (by simp [matrixParameters]))
  have hcol : ρ.Denotes .sum (colPosition name (if l.transposed then i else j))
      (l.position ρ name a b).col := by
    unfold colPosition position
    split <;> exact Values.Denotes.position ‹_› (hname.isName_of_mem (by simp [matrixParameters]))
      (hname.isName_of_mem (by simp [matrixParameters]))
  have hsize₁ : IsName (internalSize1 name) := hname.isName_of_mem (by simp [matrixParameters])
  have hsize₂ : IsName (internalSize2 name) := hname.isName_of_mem (by simp [matrixParameters])
  cases hmajor : l.rowMajor with
  | true =>
    simp only [offset, flatten, hmajor, if_true]
    exact hrow.scaled_first hcol (.name hsize₂)
  | false =>
    simp only [offset, flatten, hmajor, Bool.false_eq_true, if_false]
    exact hrow.scaled_second hcol (.name hsize₁)

theorem index?_offset (hname : AllWord name) (hi : IsWord i) (hj : IsWord j) :
    ρ.index? (l.offset name i j) =
      some (l.flatten ρ name (l.position ρ name (ρ.word i) (ρ.word j))) :=
  (l.denotes_offset hname (Values.Denotes.word hi).toProduct.toSum
    (Values.Denotes.word hj).toProduct.toSum).sum?_eq

end Layout

/-! ### Flat offsets -/

/-- A position inside a rectangle has its offset below the size of the rectangle. -/
theorem mul_add_lt_mul {r c rows cols : Nat} (hr : r < rows) (hc : c < cols) :
    r * cols + c < rows * cols :=
  calc r * cols + c < r * cols + cols := Nat.add_lt_add_left hc _
    _ = (r + 1) * cols := (Nat.succ_mul r cols).symm
    _ ≤ rows * cols := Nat.mul_le_mul_right cols hr

/-- An offset tells the position, if the second part is in range. -/
theorem mul_add_inj {r c r' c' cols : Nat} (hc : c < cols) (hc' : c' < cols)
    (h : r * cols + c = r' * cols + c') : r = r' ∧ c = c' := by
  have hcols : 0 < cols := Nat.lt_of_le_of_lt (Nat.zero_le c) hc
  have hdiv : ∀ {a b : Nat}, b < cols → (a * cols + b) / cols = a := by
    intro a b hb
    rw [Nat.mul_comm, Nat.mul_add_div hcols, Nat.div_eq_of_lt hb, Nat.add_zero]
  have hr : r = r' := by
    rw [← hdiv (a := r) hc, h, hdiv hc']
  subst hr
  exact ⟨rfl, Nat.add_left_cancel h⟩

namespace Layout

variable {l : Layout} {ρ : Values} {name : String} {p q : Position}

theorem flatten_lt (hrow : p.row < ρ (internalSize1 name))
    (hcol : p.col < ρ (internalSize2 name)) :
    l.flatten ρ name p < ρ (internalSize1 name) * ρ (internalSize2 name) := by
  unfold flatten
  split
  · exact mul_add_lt_mul hrow hcol
  · rw [Nat.add_comm, Nat.mul_comm (ρ (internalSize1 name))]
    exact mul_add_lt_mul hcol hrow

theorem flatten_inj (hp : p.row < ρ (internalSize1 name) ∧ p.col < ρ (internalSize2 name))
    (hq : q.row < ρ (internalSize1 name) ∧ q.col < ρ (internalSize2 name))
    (h : l.flatten ρ name p = l.flatten ρ name q) : p.row = q.row ∧ p.col = q.col := by
  unfold flatten at h
  split at h
  · exact mul_add_inj hp.2 hq.2 h
  · rw [Nat.add_comm, Nat.add_comm q.row] at h
    exact (mul_add_inj hp.1 hq.1 h).symm

/-- With positive increments, a position tells the indices. -/
theorem position_inj (hinc : ρ.Strided name) {i j i' j' : Nat}
    (hrow : (l.position ρ name i j).row = (l.position ρ name i' j').row)
    (hcol : (l.position ρ name i j).col = (l.position ρ name i' j').col) : i = i' ∧ j = j' := by
  have hfirst := Nat.eq_of_mul_eq_mul_right hinc.1 (Nat.add_right_cancel hrow)
  have hsecond := Nat.eq_of_mul_eq_mul_right hinc.2 (Nat.add_right_cancel hcol)
  cases ht : l.transposed with
  | true =>
    rw [ht] at hfirst hsecond
    exact ⟨hsecond, hfirst⟩
  | false =>
    rw [ht] at hfirst hsecond
    exact ⟨hfirst, hsecond⟩

/-- Other values of names that are not parameters of the matrix have no part in it. -/
theorem inBounds_of_agree {ρ' : Values} (h : ∀ w ∈ matrixParameters name, ρ' w = ρ w)
    (hname : AllWord name) {i j : String} (hi : IsWord i) (hj : IsWord j)
    (hin : l.InBounds ρ' name i j) :
    ((l.position ρ name (ρ'.word i) (ρ'.word j)).row < ρ (internalSize1 name) ∧
      (l.position ρ name (ρ'.word i) (ρ'.word j)).col < ρ (internalSize2 name)) ∧
      ρ'.index? (l.offset name i j) =
        some (l.flatten ρ name (l.position ρ name (ρ'.word i) (ρ'.word j))) := by
  have hbounds := (inBounds_iff hname hi hj).mp hin
  have hoffset : ρ'.index? (l.offset name i j) = _ := index?_offset hname hi hj
  have hagree : ρ' (rowStart name) = ρ (rowStart name) ∧ ρ' (colStart name) = ρ (colStart name) ∧
      ρ' (rowInc name) = ρ (rowInc name) ∧ ρ' (colInc name) = ρ (colInc name) ∧
      ρ' (internalSize1 name) = ρ (internalSize1 name) ∧
      ρ' (internalSize2 name) = ρ (internalSize2 name) := by
    simpa [matrixParameters] using h
  obtain ⟨hrowStart, hcolStart, hrowInc, hcolInc, hsize₁, hsize₂⟩ := hagree
  simp only [position, flatten, hrowStart, hcolStart, hrowInc, hcolInc, hsize₁,
    hsize₂] at hbounds hoffset ⊢
  exact ⟨hbounds, hoffset⟩

end Layout

/-- Matrix addressing. Where both loop conditions hold, the offset text denotes a place in the
buffer. With positive increments it denotes another place for every other logical element,
whatever texts the indices have and whatever values names other than the matrix parameters
have. -/
theorem offset_addresses_buffer (l : Layout) {name i j : String} (hname : AllWord name)
    (hi : IsWord i) (hj : IsWord j) {ρ : Values} (hin : l.InBounds ρ name i j) :
    ∃ n, ρ.index? (l.offset name i j) = some n ∧
      n < ρ (internalSize1 name) * ρ (internalSize2 name) ∧
      (ρ.Strided name → ∀ (ρ' : Values) (i' j' : String), IsWord i' → IsWord j' →
        (∀ w ∈ matrixParameters name, ρ' w = ρ w) → l.InBounds ρ' name i' j' →
        ρ'.index? (l.offset name i' j') = some n →
        ρ'.word i' = ρ.word i ∧ ρ'.word j' = ρ.word j) := by
  have hbounds := (Layout.inBounds_iff hname hi hj).mp hin
  refine ⟨_, Layout.index?_offset hname hi hj, Layout.flatten_lt hbounds.1 hbounds.2, ?_⟩
  intro hinc ρ' i' j' hi' hj' hagree hin' hsame
  obtain ⟨hbounds', hoffset⟩ := Layout.inBounds_of_agree hagree hname hi' hj' hin'
  have hflat := Option.some.inj (hoffset.symm.trans hsame)
  obtain ⟨hrow, hcol⟩ := Layout.flatten_inj hbounds' hbounds hflat
  exact Layout.position_inj hinc hrow hcol

/-- A matrix `A` of six by seven elements, of which every second row from the second on and every
third column are used, and the indices of its last used element. -/
def cornerValues : Values
  | "A_row_start" => 1
  | "A_col_start" => 0
  | "A_row_inc" => 2
  | "A_col_inc" => 3
  | "A_internal_size1" => 6
  | "A_internal_size2" => 7
  | _ => 2

/-- Stored by columns and transposed, the last used element of `A` lies at the last place of the
buffer, and the element in row 0 and column 1 lies elsewhere. -/
theorem offset_addresses_buffer_corner :
    AllWord "A" ∧ IsWord "i" ∧ IsWord "j" ∧ IsWord "0" ∧ IsWord "1" ∧ cornerValues.Strided "A" ∧
      Layout.InBounds ⟨false, true⟩ cornerValues "A" "i" "j" ∧
      Layout.InBounds ⟨false, true⟩ cornerValues "A" "0" "1" ∧
      cornerValues.index? (Layout.offset ⟨false, true⟩ "A" "i" "j") = some 41 ∧ 41 < 6 * 7 ∧
      cornerValues.index? (Layout.offset ⟨false, true⟩ "A" "0" "1") ≠ some 41 := by
  have hname : AllWord "A" := by decide +kernel
  have word : ∀ {w : String}, w.toList ≠ [] → AllWord w → IsWord w := fun hne hall => ⟨hne, hall⟩
  have hi : IsWord "i" := word (by decide) (by decide +kernel)
  have hj : IsWord "j" := word (by decide) (by decide +kernel)
  have hzero : IsWord "0" := word (by decide) (by decide +kernel)
  have hone : IsWord "1" := word (by decide) (by decide +kernel)
  have hinc : cornerValues.Strided "A" := by decide +kernel
  have hin : Layout.InBounds ⟨false, true⟩ cornerValues "A" "i" "j" :=
    (Layout.inBounds_iff hname hi hj).mpr (by decide +kernel)
  have hin' : Layout.InBounds ⟨false, true⟩ cornerValues "A" "0" "1" :=
    (Layout.inBounds_iff hname hzero hone).mpr (by decide +kernel)
  have hvalue : cornerValues.index? (Layout.offset ⟨false, true⟩ "A" "i" "j") = some 41 := by
    decide +kernel
  obtain ⟨n, hn, hlt, hother⟩ := offset_addresses_buffer ⟨false, true⟩ hname hi hj hin
  obtain rfl := Option.some.inj (hvalue.symm.trans hn)
  refine ⟨hname, hi, hj, hzero, hone, hinc, hin, hin', hvalue, hlt, fun hsame => ?_⟩
  have hindices := hother hinc cornerValues "0" "1" hzero hone (fun _ _ => rfl) hin' hsame
  exact absurd hindices.1 (by decide +kernel)

end LinearKernels
