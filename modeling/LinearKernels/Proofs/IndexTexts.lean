import LinearKernels.Argument
import LinearKernels.LocalMemory
import LinearKernels.Proofs.KernelExpressions
import LinearKernels.Proofs.MatrixOffsets
import LinearKernels.Proofs.PhraseValues

/-!
Indices that are put into other texts. The offset of a matrix and the access to a tile put
brackets around their indices, so they denote the offset of the values of the indices, whatever
expressions these are. A view puts none: its stride multiplies the last term of the index alone.
-/

namespace LinearKernels

namespace Values

/-- The text is a sum whose last term has the value `last`; the terms before it sum to `front`. -/
def EndsWith (ρ : Values) (text : String) (front last : Nat) : Prop :=
  (ρ.Denotes .product text last ∧ front = 0) ∨
    ∃ before term, codeTokens text = before ++ .mark '+' :: term ∧
      IndexTokens ρ .sum before front ∧ IndexTokens ρ .product term last

variable {ρ : Values} {u : String} {n front last : Nat}

theorem Denotes.exists_endsWith (h : ρ.Denotes .sum u n) :
    ∃ front last, ρ.EndsWith u front last := by
  unfold Denotes at h
  generalize htokens : codeTokens u = ts at h
  cases h with
  | product h => exact ⟨0, n, .inl ⟨by rwa [Denotes, htokens], rfl⟩⟩
  | add hl hr => exact ⟨_, _, .inr ⟨_, _, htokens, hl, hr⟩⟩

theorem Denotes.decimal (k : Nat) : ρ.Denotes .operand (decimal k) k := by
  simpa only [word_decimal] using (word (isWord_decimal k) : ρ.Denotes .operand _ _)

namespace EndsWith

theorem denotes (h : ρ.EndsWith u front last) : ρ.Denotes .sum u (front + last) := by
  rcases h with ⟨h, rfl⟩ | ⟨before, term, htokens, hbefore, hterm⟩
  · rw [Nat.zero_add]
    exact h.toSum
  · rw [Denotes, htokens]
    exact .add hbefore hterm

/-- A factor that follows a sum multiplies its last term. -/
theorem mul (h : ρ.EndsWith u front last) {w : String} {k : Nat} (hw : ρ.Denotes .operand w k) :
    ρ.EndsWith (u ++ ("*" ++ w)) front (last * k) := by
  rcases h with ⟨h, rfl⟩ | ⟨before, term, htokens, hbefore, hterm⟩
  · exact .inl ⟨h.mul hw, rfl⟩
  · refine .inr ⟨before, term ++ .mark '*' :: codeTokens w, ?_, hbefore, .mul hterm hw⟩
    rw [codeTokens_separated (by decide) (by decide) (by decide), htokens, List.append_assoc]
    rfl

end EndsWith

end Values

/-! ### Views -/

namespace View

variable {ρ : Values} {i : String} {front last : Nat}

/-- The terms before the last are not multiplied. -/
theorem denotes_index (v : View) (h : ρ.EndsWith i front last) :
    ρ.Denotes .sum (v.index i) (front + last * v.stride + v.start) := by
  have hscaled : ρ.Denotes .sum (if v.stride = 1 then i else i ++ ("*" ++ decimal v.stride))
      (front + last * v.stride) := by
    split
    next hone =>
      rw [hone, Nat.mul_one]
      exact h.denotes
    next => exact (h.mul (.decimal v.stride)).denotes
  rw [index_eq]
  by_cases hzero : v.start = 0
  · rw [if_pos hzero, hzero, Nat.add_zero, String.append_empty]
    exact hscaled
  · rw [if_neg hzero]
    exact hscaled.add (Values.Denotes.decimal v.start).toProduct

/-- The index of a view denotes the place of the element exactly if the stride is one or the
terms before the last are zero. -/
theorem denotes_element_iff (v : View) (h : ρ.EndsWith i front last) :
    ρ.Denotes .sum (v.index i) ((front + last) * v.stride + v.start) ↔
      v.stride = 1 ∨ front = 0 := by
  have hindex := v.denotes_index h
  constructor
  · intro hdenotes
    have hvalue : (front + last) * v.stride + v.start = front + last * v.stride + v.start :=
      IndexTokens.unique hdenotes hindex
    rw [Nat.add_mul, Nat.add_right_cancel_iff, Nat.add_right_cancel_iff] at hvalue
    by_cases hfront : front = 0
    · exact .inr hfront
    · exact .inl ((Nat.mul_eq_left hfront).mp hvalue)
  · rintro (hone | rfl)
    · simpa only [hone, Nat.mul_one] using hindex
    · simpa only [Nat.zero_add] using hindex

end View

/-! ### Composition -/

/-- What the index texts denote, for indices that are expressions. Offsets of matrices and
accesses to tiles denote the offset of the values of their indices. The index of a view, which
is the subscript of a vector element, does so exactly if the stride is one or the terms of the
index before its last are zero. -/
theorem index_texts_compose_iff {ρ : Values} {i j : String} {a b : Nat} (hi : ρ.Denotes .sum i a)
    (hj : ρ.Denotes .sum j b) :
    (∀ (l : Layout) (name : String), AllWord name →
      ρ.Denotes .sum (l.offset name i j) (l.flatten ρ name (l.position ρ name a b)) ∧
      ∀ (arg : Argument) (reg : Registry), arg.storage = .matrix l → arg.name reg = .ok name →
        arg.matrixElement reg i j = .ok (name ++ "[" ++ l.offset name i j ++ "]")) ∧
    (∀ t : LocalTile, ∃ index, t.access i j = t.name ++ "[" ++ index ++ "]" ∧
      ρ.Denotes .sum index (a * t.cols + b)) ∧
    (∃ front last, ρ.EndsWith i front last) ∧
    ∀ front last, ρ.EndsWith i front last → a = front + last ∧
      ∀ v : View, ρ.Denotes .sum (v.index i) (front + last * v.stride + v.start) ∧
        (ρ.Denotes .sum (v.index i) (a * v.stride + v.start) ↔ v.stride = 1 ∨ front = 0) ∧
        ∀ (arg : Argument) (reg : Registry) (name : String), arg.storage = .vector v →
          arg.name reg = .ok name →
          arg.vectorElement reg i = .ok (name ++ "[" ++ v.index i ++ "]") := by
  refine ⟨fun l name hname => ⟨l.denotes_offset hname hi hj, fun arg reg hstorage hbound => ?_⟩,
    fun t => ?_, hi.exists_endsWith, fun front last hends => ?_⟩
  · rw [Argument.matrixElement, hbound, hstorage]
    rfl
  · exact ⟨_, rfl, hi.scaled_first hj (.decimal t.cols)⟩
  · obtain rfl : a = front + last := IndexTokens.unique hi hends.denotes
    refine ⟨rfl, fun v => ⟨v.denotes_index hends, v.denotes_element_iff hends,
      fun arg reg name hstorage hbound => ?_⟩⟩
    rw [Argument.vectorElement, hbound, hstorage]
    rfl

/-- A product with a sum in brackets is one term, so all builders compose with it. -/
theorem index_texts_compose_product :
    Values.Denotes (fun _ => 2) .sum "(i+1)*k" 6 ∧ Values.Denotes (fun _ => 2) .sum "j+3" 5 ∧
    Values.Denotes (fun _ => 2) .sum (Layout.offset ⟨true, true⟩ "A" "(i+1)*k" "j+3")
      (12 * 2 + 14) ∧
    Values.Denotes (fun _ => 2) .sum (View.index ⟨1, 3⟩ "(i+1)*k") (6 * 3 + 1) := by
  have hsum : Values.Denotes (fun _ => 2) .sum "i+1" 3 :=
    (Values.Denotes.word (u := "i") ⟨by decide, by decide⟩).toProduct.toSum.add
      (Values.Denotes.word (u := "1") ⟨by decide, by decide⟩).toProduct
  have hproduct : Values.Denotes (fun _ => 2) .product "(i+1)*k" 6 :=
    hsum.brackets.toProduct.mul (Values.Denotes.word (u := "k") ⟨by decide, by decide⟩)
  have hother : Values.Denotes (fun _ => 2) .sum "j+3" 5 :=
    (Values.Denotes.word (u := "j") ⟨by decide, by decide⟩).toProduct.toSum.add
      (Values.Denotes.word (u := "3") ⟨by decide, by decide⟩).toProduct
  obtain ⟨hmatrix, -, -, hview⟩ := index_texts_compose_iff hproduct.toSum hother
  exact ⟨hproduct.toSum, hother, (hmatrix ⟨true, true⟩ "A" (by decide)).1,
    ((hview 0 6 (.inl ⟨hproduct, rfl⟩)).2 ⟨1, 3⟩).2.1.mpr (.inr rfl)⟩

/-- The stride of a view multiplies only the one in the index `i+1`. -/
theorem sum_index_scaled_in_part :
    View.index ⟨0, 2⟩ "i+1" = "i+1*2" ∧ Values.Denotes (fun _ => 3) .sum "i+1" 4 ∧
      Values.Denotes (fun _ => 3) .sum (View.index ⟨0, 2⟩ "i+1") 5 ∧
      ¬ Values.Denotes (fun _ => 3) .sum (View.index ⟨0, 2⟩ "i+1") (4 * 2 + 0) := by
  have hends : Values.EndsWith (fun _ => 3) "i+1" 3 1 :=
    .inr ⟨[.word "i"], [.word "1"], by decide +kernel, .product (.operand (.word "i")),
      .operand (.word "1")⟩
  refine ⟨by decide +kernel, hends.denotes, View.denotes_index ⟨0, 2⟩ hends, fun hdenotes => ?_⟩
  rcases (View.denotes_element_iff ⟨0, 2⟩ hends).mp hdenotes with hstride | hfront
  · cases hstride
  · cases hfront

end LinearKernels
