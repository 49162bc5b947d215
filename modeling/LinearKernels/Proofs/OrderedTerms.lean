import LinearKernels.Proofs.TermSets
import LinearKernels.Proofs.TermShape

/-!
The order of composite terms. A term is less than another exactly if some handle of the one is
less than some handle of the other. Among terms that have one handle each this is the order of
their handles, and a set of such terms is sorted and takes none of them twice. A term with two
handles is less than itself, so no class with such a term is strictly ordered, and a set takes
that term again and again.
-/

namespace LinearKernels

namespace Term

/-! ### The order by handles -/

theorem handles_unary (op : UnaryOp) (sub : Term) : (unary op sub).handles = sub.handles := by
  rw [handles, walk, List.filterMap_append]
  exact List.append_nil _

/-- The handles of a term that a walk enters are those of its two operands. -/
theorem handles_entered {t lhs rhs : Term} (hwalk : t.walk = lhs.walk ++ rhs.walk ++ [t])
    (ht : t.handle? = none) :
    t.handles = lhs.handles ++ rhs.handles := by
  rw [handles, hwalk, handles_pair _ _ _ ht]
  rfl

/-- An inner product is met as its temporary or by its operands. -/
theorem inner_cases (lhs rhs : Term) (computed : Option Nat) (temporary : Option Argument) :
    (∃ pass cell, computed = some pass ∧ temporary = some cell) ∨
      ((inner lhs rhs computed temporary).handles = lhs.handles ++ rhs.handles ∧
        (∀ h, handleLess h (inner lhs rhs computed temporary) =
          (handleLess h lhs || handleLess h rhs)) ∧
        ∀ t, less (inner lhs rhs computed temporary) t = (less lhs t || less rhs t)) := by
  cases computed with
  | none => exact .inr ⟨handles_entered rfl rfl, fun _ => rfl, fun _ => rfl⟩
  | some pass =>
    cases temporary with
    | none => exact .inr ⟨handles_entered rfl rfl, fun _ => rfl, fun _ => rfl⟩
    | some cell => exact .inl ⟨pass, cell, rfl, rfl⟩

/-- A condition on two operands is one on their handles if it is so for each. -/
theorem or_iff_of_handles {P : Handle → Prop} {lhs rhs : Term} {a b : Bool}
    (ha : a = true ↔ ∃ h ∈ lhs.handles, P h) (hb : b = true ↔ ∃ h ∈ rhs.handles, P h) :
    (a || b) = true ↔ ∃ h ∈ lhs.handles ++ rhs.handles, P h := by
  simp only [Bool.or_eq_true, ha, hb, List.mem_append, or_and_right, exists_or]

theorem handleLess_iff {h : Handle} {t : Term} :
    handleLess h t = true ↔ ∃ k ∈ t.handles, h.less k = true := by
  induction t with
  | leaf arg => simp [handleLess, handles, walk, handle?, argument?]
  | unary op sub ih =>
    rw [handles_unary]
    exact ih
  | binary op lhs rhs ihl ihr | matMat lhs rhs ihl ihr | matVec lhs rhs ihl ihr =>
    rw [handles_entered rfl rfl]
    exact or_iff_of_handles ihl ihr
  | inner lhs rhs computed temporary ihl ihr =>
    rcases inner_cases lhs rhs computed temporary with
      ⟨pass, cell, rfl, rfl⟩ | ⟨hhandles, hless, -⟩
    · simp [handleLess, handles, walk, handle?, argument?]
    · rw [hhandles, hless]
      exact or_iff_of_handles ihl ihr

/-- The order of terms in terms of their handles. -/
theorem less_iff {s t : Term} :
    s.less t = true ↔ ∃ h ∈ s.handles, ∃ k ∈ t.handles, h.less k = true := by
  induction s with
  | leaf arg => simp [less, handleLess_iff, handles, walk, handle?, argument?]
  | unary op sub ih =>
    rw [handles_unary]
    exact ih
  | binary op lhs rhs ihl ihr | matMat lhs rhs ihl ihr | matVec lhs rhs ihl ihr =>
    rw [handles_entered rfl rfl]
    exact or_iff_of_handles ihl ihr
  | inner lhs rhs computed temporary ihl ihr =>
    rcases inner_cases lhs rhs computed temporary with
      ⟨pass, cell, rfl, rfl⟩ | ⟨hhandles, -, hless⟩
    · simp [less, handleLess_iff, handles, walk, handle?, argument?]
    · rw [hhandles, hless]
      exact or_iff_of_handles ihl ihr

/-! ### Terms with one handle -/

/-- A walk through the term meets one handle only, however often. -/
def HasOneHandle (t : Term) : Prop :=
  ∀ h ∈ t.handles, ∀ k ∈ t.handles, h = k

/-- A term is less than itself exactly if it has two handles. -/
theorem less_self_iff {t : Term} : t.less t = false ↔ t.HasOneHandle := by
  rw [← Bool.not_eq_true, less_iff]
  constructor
  · intro hnot h hh k hk
    have hless : ∀ {a b : Handle}, a ∈ t.handles → b ∈ t.handles → a.less b = false :=
      fun ha hb => Bool.eq_false_iff.mpr fun hab => hnot ⟨_, ha, _, hb, hab⟩
    exact Handle.eq_of_not_less (hless hh hk) (hless hk hh)
  · rintro hone ⟨h, hh, k, hk, hless⟩
    rw [hone h hh k hk, Handle.less_irrefl] at hless
    cases hless

/-- The order can be chained at a term that has one handle. -/
theorem HasOneHandle.less_trans {s t u : Term} (ht : t.HasOneHandle) (hst : s.less t = true)
    (htu : t.less u = true) : s.less u = true := by
  obtain ⟨h, hh, k, hk, hhk⟩ := less_iff.mp hst
  obtain ⟨k', hk', l, hl, hkl⟩ := less_iff.mp htu
  rw [ht k' hk' k hk] at hkl
  exact less_iff.mpr ⟨h, hh, l, hl, Handle.less_trans hhk hkl⟩

theorem HasOneHandle.less_asymm {s t : Term} (hs : s.HasOneHandle) (ht : t.HasOneHandle)
    (hst : s.less t = true) :
    t.less s = false := by
  refine Bool.eq_false_iff.mpr fun hts => ?_
  have hself := ht.less_trans hst hts
  rw [less_self_iff.mpr hs] at hself
  cases hself

theorem hasOneHandle_of_handle? {t : Term} {h : Handle} (ht : t.handle? = some h) :
    t.HasOneHandle := by
  refine less_self_iff.mp ?_
  rw [less_eq ht ht, Handle.less_irrefl]

theorem handles_ne_nil (t : Term) : t.handles ≠ [] := by
  induction t with
  | leaf arg => simp [handles, walk, handle?, argument?]
  | unary op sub ih => rwa [handles_unary]
  | binary op lhs rhs ihl ihr | matMat lhs rhs ihl ihr | matVec lhs rhs ihl ihr =>
    rw [handles_entered rfl rfl]
    exact List.append_ne_nil_of_left_ne_nil ihl _
  | inner lhs rhs computed temporary ihl ihr =>
    rcases inner_cases lhs rhs computed temporary with ⟨pass, cell, rfl, rfl⟩ | ⟨hhandles, -⟩
    · simp [handles, walk, handle?, argument?]
    · rw [hhandles]
      exact List.append_ne_nil_of_left_ne_nil ihl _

/-- A term with two handles is less than any other term, or that one is less. -/
theorem hasOneHandle_of_not_less {s t : Term} (hst : s.less t = false) (hts : t.less s = false) :
    t.HasOneHandle := by
  obtain ⟨l, hl⟩ := List.exists_mem_of_ne_nil _ s.handles_ne_nil
  have heq : ∀ h ∈ t.handles, h = l := by
    intro h hh
    refine Handle.eq_of_not_less (Bool.eq_false_iff.mpr fun hless => ?_)
      (Bool.eq_false_iff.mpr fun hless => ?_)
    · rw [less_iff.mpr ⟨h, hh, l, hl, hless⟩] at hts
      cases hts
    · rw [less_iff.mpr ⟨l, hl, h, hh, hless⟩] at hst
      cases hst
  intro h hh k hk
  rw [heq h hh, heq k hk]

/-- The order is strict among the terms of a class. -/
structure StrictAmong (C : Term → Prop) : Prop where
  irrefl : ∀ t, C t → t.less t = false
  asymm : ∀ s t, C s → C t → s.less t = true → t.less s = false
  trans : ∀ s t u, C s → C t → C u → s.less t = true → t.less u = true → s.less u = true

theorem strictAmong_iff {C : Term → Prop} : StrictAmong C ↔ ∀ t, C t → t.HasOneHandle := by
  constructor
  · intro h t ht
    exact less_self_iff.mp (h.irrefl t ht)
  · intro h
    exact ⟨fun t ht => less_self_iff.mpr (h t ht), fun s t hs ht => (h s hs).less_asymm (h t ht),
      fun s t u _ ht _ => (h t ht).less_trans⟩

end Term

/-! ### Sets -/

namespace TermSet

/-- A set grows by one term or stays as it is. -/
theorem size_insert (s : TermSet) (t : Term) :
    (s.insert t).size = s.size + if s.adds t then 1 else 0 := by
  cases hadds : s.adds t with
  | true =>
    obtain ⟨before, after, hterms, heq, -⟩ := insert_of_adds hadds
    simp only [size, heq, hterms, List.length_append, List.length_cons, if_true]
    omega
  | false =>
    rw [(insert_of_not_adds hadds).1]
    rfl

theorem insert_eq_self_iff {s : TermSet} {t : Term} : s.insert t = s ↔ s.adds t = false := by
  refine ⟨fun heq => ?_, fun hadds => (insert_of_not_adds hadds).1⟩
  have hsize := size_insert s t
  rw [heq] at hsize
  cases hadds : s.adds t with
  | false => rfl
  | true => simp [hadds] at hsize

/-- The terms ascend, and a term that is there is neither added nor does it change the set. -/
structure Ordered (s : TermSet) : Prop where
  ascending : s.terms.Pairwise fun x y => x.less y = true
  rejects : ∀ t ∈ s.terms, s.adds t = false ∧ s.insert t = s

theorem ascending_insert_of_hasOneHandle {s : TermSet}
    (h : s.terms.Pairwise fun x y => x.less y = true)
    (hone : ∀ x ∈ s.terms, x.HasOneHandle) (t : Term) :
    (s.insert t).terms.Pairwise fun x y => x.less y = true :=
  ascending_insert h fun x hx y hy => ⟨(hone y hy).less_trans, (hone x hx).less_trans⟩

theorem adds_eq_false_of_mem {s : TermSet} (h : s.terms.Pairwise fun x y => x.less y = true)
    (hone : ∀ x ∈ s.terms, x.HasOneHandle) {t : Term} (ht : t ∈ s.terms) : s.adds t = false := by
  refine Bool.eq_false_iff.mpr fun hadds => ?_
  obtain ⟨before, after, hterms, heq, -⟩ := insert_of_adds hadds
  have hascending := ascending_insert_of_hasOneHandle h hone t
  rw [heq] at hascending
  obtain ⟨-, hafter, hbefore⟩ := List.pairwise_append.mp hascending
  -- The term would stand on both sides of itself.
  have hself : t.less t = true := by
    rw [hterms] at ht
    rcases List.mem_append.mp ht with ht | ht
    · exact hbefore t ht t (List.mem_cons_self ..)
    · exact (List.pairwise_cons.mp hafter).1 t ht
  rw [Term.less_self_iff.mpr (hone t ht)] at hself
  cases hself

theorem ascending_insertAll {s : TermSet} (h : s.terms.Pairwise fun x y => x.less y = true)
    (hone : ∀ x ∈ s.terms, x.HasOneHandle) {ts : List Term} (hts : ∀ t ∈ ts, t.HasOneHandle) :
    (s.insertAll ts).terms.Pairwise fun x y => x.less y = true := by
  induction ts generalizing s with
  | nil => exact h
  | cons t ts ih =>
    obtain ⟨ht, hts⟩ := List.forall_mem_cons.mp hts
    refine ih (ascending_insert_of_hasOneHandle h hone t) (fun x hx => ?_) hts
    rcases mem_insert hx with hx | rfl
    · exact hone x hx
    · exact ht

/-- Insertions of terms with one handle each. -/
theorem ordered_insertAll {ts : List Term} (h : ∀ t ∈ ts, t.HasOneHandle) :
    (empty.insertAll ts).Ordered := by
  have hascending :=
    ascending_insertAll List.Pairwise.nil (s := empty) (fun x hx => by cases hx) h
  have hone : ∀ t ∈ (empty.insertAll ts).terms, t.HasOneHandle := fun t ht =>
    h t ((mem_insertAll ht).resolve_left (by simp [empty]))
  refine ⟨hascending, fun t ht => ?_⟩
  have hadds := adds_eq_false_of_mem hascending hone ht
  exact ⟨hadds, insert_eq_self_iff.mpr hadds⟩

/-- A term with two handles is added to every set. -/
theorem hasOneHandle_of_adds_eq_false {s : TermSet} {t : Term} (h : s.adds t = false) :
    t.HasOneHandle := by
  obtain ⟨-, x, -, hxt, htx⟩ := insert_of_not_adds h
  exact Term.hasOneHandle_of_not_less hxt htx

/-- What is in a set stays there, and so does a term that is added. -/
theorem mem_insert_of {s : TermSet} {t x : Term} (h : x ∈ s.terms ∨ x = t ∧ s.adds t = true) :
    x ∈ (s.insert t).terms := by
  cases hadds : s.adds t with
  | true =>
    obtain ⟨before, after, hterms, heq, -⟩ := insert_of_adds hadds
    rw [heq]
    rw [hterms] at h
    grind
  | false =>
    rw [(insert_of_not_adds hadds).1]
    exact h.resolve_right fun hx => by simp [hadds] at hx

theorem mem_insertAll_of {s : TermSet} {ts : List Term} {x : Term}
    (h : x ∈ s.terms ∨ x ∈ ts ∧ ¬ x.HasOneHandle) : x ∈ (s.insertAll ts).terms := by
  induction ts generalizing s with
  | nil => simpa [insertAll] using h
  | cons t ts ih =>
    refine ih ?_
    rcases h with h | ⟨hmem, hx⟩
    · exact .inl (mem_insert_of (.inl h))
    · rcases List.mem_cons.mp hmem with rfl | hmem
      · refine .inl (mem_insert_of (.inr ⟨rfl, ?_⟩))
        exact (Bool.not_eq_false _).mp fun hadds => hx (hasOneHandle_of_adds_eq_false hadds)
      · exact .inr ⟨hmem, hx⟩

/-- Insertions give a set in order exactly if every inserted term has one handle. -/
theorem ordered_insertAll_iff {ts : List Term} :
    (empty.insertAll ts).Ordered ↔ ∀ t ∈ ts, t.HasOneHandle := by
  refine ⟨fun h t ht => Classical.byContradiction fun hnot => ?_, ordered_insertAll⟩
  have hmem : t ∈ (empty.insertAll ts).terms := mem_insertAll_of (.inr ⟨ht, hnot⟩)
  exact hnot (hasOneHandle_of_adds_eq_false (h.rejects t hmem).1)

end TermSet

/-- Where the order of terms is strict. It is so in a class of terms exactly if every term of the
class has one handle. Insertions give a set that is in order and takes no term twice exactly if
every inserted term has one handle; so do the subterms of a kind. Terms that stand for arguments
have one. -/
theorem order_strict_iff (C : Term → Prop) (ts : List Term) (kind : TermKind)
    (condition : Term → Bool) (t : Term) :
    (Term.StrictAmong C ↔ ∀ x, C x → x.HasOneHandle) ∧
    ((TermSet.empty.insertAll ts).Ordered ↔ ∀ x ∈ ts, x.HasOneHandle) ∧
    ((t.extract kind condition).Ordered ↔
      ∀ x ∈ t.walk, kind.admits x = true → condition x = true → x.HasOneHandle) ∧
    (TermKind.argument.admits t = true → t.HasOneHandle) := by
  refine ⟨Term.strictAmong_iff, TermSet.ordered_insertAll_iff, ?_, fun ht => ?_⟩
  · rw [Term.extract, TermSet.ordered_insertAll_iff]
    simp only [List.mem_filter, Bool.and_eq_true, and_imp]
  · obtain ⟨k, hk⟩ := Term.handle?_of_admits ht
    exact Term.hasOneHandle_of_handle? hk

/-- A vector in a buffer. -/
def vectorLeaf (key : Nat) : Term :=
  .leaf ⟨.buffer key, .float, .vector .whole, none⟩

/-- The sum of two vectors is less than itself, and it is less than a vector between the two that
is less than it. The set of sums in an inner product of the sum with itself has it twice. Among
such sums an insertion takes a plain vector twice, too: the bisection looks behind it. -/
theorem sum_less_than_itself :
    (∃ sum product : Term, Term.mkBinary .add (vectorLeaf 1) (vectorLeaf 3) = .ok sum ∧
      Term.mkInner sum sum = .ok product ∧ sum.less sum = true ∧
      sum.less (vectorLeaf 2) = true ∧ (vectorLeaf 2).less sum = true ∧
      (vectorLeaf 2).less (vectorLeaf 2) = false ∧
      (product.extract .binary fun _ => true).terms = [sum, sum] ∧
      (product.extract .binary fun _ => true).adds sum = true) ∧
    ∃ low high : Term, Term.mkBinary .add (vectorLeaf 1) (vectorLeaf 9) = .ok low ∧
      Term.mkBinary .add (vectorLeaf 2) (vectorLeaf 9) = .ok high ∧
      (TermSet.empty.insertAll [vectorLeaf 5, low, high]).adds (vectorLeaf 5) = true ∧
      (TermSet.empty.insertAll [vectorLeaf 5, low, high, vectorLeaf 5]).terms =
        [vectorLeaf 5, low, high, vectorLeaf 5] := by
  exact ⟨⟨_, _, rfl, rfl, rfl, rfl, rfl, rfl, rfl, rfl⟩, _, _, rfl, rfl, rfl, rfl⟩

end LinearKernels
