import LinearKernels.Proofs.Bisection

/-!
Sets of terms in the order of kernel parameters. What is inserted is all there is in a set,
and a set into which something has been inserted is not empty. Among terms that stand for
arguments the order is that of their handles, which is a strict linear order; so a set of
arguments is sorted and has each handle once.
-/

namespace LinearKernels

/-! ### The order of handles -/

namespace Handle

theorem less_irrefl (h : Handle) : h.less h = false := by
  cases h <;> simp [less]

theorem less_trans {a b c : Handle} (hab : a.less b = true) (hbc : b.less c = true) :
    a.less c = true := by
  cases a <;> cases b <;> cases c <;> simp_all [less] <;> omega

theorem less_asymm {a b : Handle} (hab : a.less b = true) : b.less a = false := by
  cases hba : b.less a with
  | false => rfl
  | true => exact absurd (less_trans hab hba) (by simp [less_irrefl])

theorem eq_of_not_less {a b : Handle} (hab : a.less b = false)
    (hba : b.less a = false) : a = b := by
  cases a <;> cases b <;> simp_all [less] <;> omega

end Handle

namespace Term

theorem less_eq {s t : Term} {h k : Handle} (hs : s.handle? = some h) (ht : t.handle? = some k) :
    s.less t = h.less k := by
  have hless : ∀ {t : Term}, t.handle? = some k → handleLess h t = h.less k := by
    intro t ht
    obtain ⟨a, ha, rfl⟩ := Option.map_eq_some_iff.mp ht
    cases t with
    | leaf arg =>
      obtain rfl := Option.some.inj ha
      rfl
    | inner lhs rhs computed temporary =>
      cases computed with
      | none => cases ha
      | some pass =>
        obtain rfl : temporary = some a := ha
        rfl
    | unary | binary | matMat | matVec => cases ha
  obtain ⟨a, ha, rfl⟩ := Option.map_eq_some_iff.mp hs
  cases s with
  | leaf arg =>
    obtain rfl := Option.some.inj ha
    exact hless ht
  | inner lhs rhs computed temporary =>
    cases computed with
    | none => cases ha
    | some pass =>
      obtain rfl : temporary = some a := ha
      exact hless ht
  | unary | binary | matMat | matVec => cases ha

end Term

/-! ### Insertion -/

namespace TermSet

/-- A term that is added goes between a term that is less and one that is greater. -/
theorem insert_of_adds {s : TermSet} {t : Term} (h : s.adds t = true) :
    ∃ before after, s.terms = before ++ after ∧ s.insert t = ⟨before ++ t :: after⟩ ∧
      (∀ x ∈ before.getLast?, x.less t = true) ∧ ∀ x ∈ after.head?, t.less x = true := by
  obtain ⟨before, after, hterms, hlength, hbefore, -⟩ := exists_bisected (·.less t) s.terms
  have hplace : s.place t = before.length := hlength.symm
  refine ⟨before, after, hterms, ?_, hbefore, fun x hx => ?_⟩
  · rw [insert, if_pos h, hplace, hterms, List.take_left, List.drop_left]
  · have hat : s.terms[s.place t]? = some x := by
      rw [hplace, hterms, List.getElem?_append_right (Nat.le_refl _), Nat.sub_self,
        ← List.head?_eq_getElem?]
      exact hx
    rwa [adds, hat] at h

/-- A term that is not added is neither less nor greater than one that is there. -/
theorem insert_of_not_adds {s : TermSet} {t : Term} (h : s.adds t = false) :
    s.insert t = s ∧ ∃ x ∈ s.terms, x.less t = false ∧ t.less x = false := by
  refine ⟨by rw [insert, h]; rfl, ?_⟩
  cases hat : s.terms[s.place t]? with
  | none =>
    rw [adds, hat] at h
    cases h
  | some x =>
    have hless : t.less x = false := by rwa [adds, hat] at h
    exact ⟨x, List.mem_of_getElem? hat, (bisect_spec _ s.terms).2.1 x hat, hless⟩

theorem mem_insert {s : TermSet} {t x : Term} (h : x ∈ (s.insert t).terms) :
    x ∈ s.terms ∨ x = t := by
  cases hadds : s.adds t with
  | true =>
    obtain ⟨before, after, hterms, heq, -⟩ := insert_of_adds hadds
    rw [heq] at h
    rw [hterms]
    grind
  | false =>
    rw [(insert_of_not_adds hadds).1] at h
    exact .inl h

theorem mem_insertAll {s : TermSet} {ts : List Term} {x : Term} (h : x ∈ (s.insertAll ts).terms) :
    x ∈ s.terms ∨ x ∈ ts := by
  induction ts generalizing s with
  | nil => exact .inl h
  | cons t ts ih =>
    rcases ih h with hx | hx
    · rcases mem_insert hx with hx | rfl
      · exact .inl hx
      · exact .inr (List.mem_cons_self ..)
    · exact .inr (List.mem_cons_of_mem t hx)

theorem insert_ne_nil (s : TermSet) (t : Term) : (s.insert t).terms ≠ [] := by
  cases hadds : s.adds t with
  | true =>
    obtain ⟨before, after, -, heq, -⟩ := insert_of_adds hadds
    simp [heq]
  | false =>
    obtain ⟨heq, x, hx, -⟩ := insert_of_not_adds hadds
    rw [heq]
    exact List.ne_nil_of_mem hx

theorem insertAll_ne_nil {s : TermSet} {ts : List Term} (h : s.terms ≠ [] ∨ ts ≠ []) :
    (s.insertAll ts).terms ≠ [] := by
  induction ts generalizing s with
  | nil => simpa [insertAll] using h
  | cons t ts ih => exact ih (.inl (insert_ne_nil s t))

theorem insertAll_append (s : TermSet) (xs ys : List Term) :
    s.insertAll (xs ++ ys) = (s.insertAll xs).insertAll ys :=
  List.foldl_append ..

/-- An insertion into terms that ascend, where the order can be chained at the terms that are
there. -/
theorem ascending_insert {s : TermSet} (h : s.terms.Pairwise fun x y => x.less y = true)
    {t : Term} (hchain : ∀ x ∈ s.terms, ∀ y ∈ s.terms,
      (x.less y = true → y.less t = true → x.less t = true) ∧
        (t.less x = true → x.less y = true → t.less y = true)) :
    (s.insert t).terms.Pairwise fun x y => x.less y = true := by
  cases hadds : s.adds t with
  | false =>
    rw [(insert_of_not_adds hadds).1]
    exact h
  | true =>
    obtain ⟨before, after, hterms, heq, hlast, hhead⟩ := insert_of_adds hadds
    rw [hterms] at h hchain
    obtain ⟨hbefore, hafter, hcross⟩ := List.pairwise_append.mp h
    have hless : ∀ x ∈ before, x.less t = true := by
      refine forall_mem_of_getLast? hlast (hbefore.imp_of_mem fun hx hy => ?_)
      exact (hchain _ (List.mem_append_left _ hx) _ (List.mem_append_left _ hy)).1
    have hgreater : ∀ x ∈ after, t.less x = true := by
      refine forall_mem_of_head? hhead (hafter.imp_of_mem fun hx hy hxy htx => ?_)
      exact (hchain _ (List.mem_append_right _ hx) _ (List.mem_append_right _ hy)).2 htx hxy
    rw [heq]
    refine List.pairwise_append.mpr
      ⟨hbefore, List.pairwise_cons.mpr ⟨hgreater, hafter⟩, fun x hx => ?_⟩
    exact List.forall_mem_cons.mpr ⟨hless x hx, hcross x hx⟩

/-! ### Sets of arguments -/

/-- All terms stand for arguments, and are in the order of their handles. -/
structure Sorted (s : TermSet) : Prop where
  arguments : ∀ t ∈ s.terms, ∃ h, t.handle? = some h
  ordered : s.terms.Pairwise fun x y => x.less y = true

def handles (s : TermSet) : List Handle :=
  s.terms.filterMap Term.handle?

theorem sorted_empty : TermSet.empty.Sorted where
  arguments t ht := by cases ht
  ordered := List.Pairwise.nil

theorem Sorted.insert {s : TermSet} (hs : s.Sorted) {t : Term} {h : Handle}
    (ht : t.handle? = some h) :
    (s.insert t).Sorted := by
  refine ⟨fun x hx => ?_, ascending_insert hs.ordered fun x hx y hy => ?_⟩
  · rcases mem_insert hx with hx | rfl
    · exact hs.arguments x hx
    · exact ⟨h, ht⟩
  · obtain ⟨k, hk⟩ := hs.arguments x hx
    obtain ⟨l, hl⟩ := hs.arguments y hy
    rw [Term.less_eq hk hl, Term.less_eq hl ht, Term.less_eq hk ht, Term.less_eq ht hk,
      Term.less_eq ht hl]
    exact ⟨Handle.less_trans, Handle.less_trans⟩

theorem Sorted.mem_handles_insert {s : TermSet} (hs : s.Sorted) {t : Term} {h : Handle}
    (ht : t.handle? = some h) {k : Handle} :
    k ∈ (s.insert t).handles ↔ k ∈ s.handles ∨ k = h := by
  cases hadds : s.adds t with
  | true =>
    obtain ⟨before, after, hterms, heq, -⟩ := insert_of_adds hadds
    simp only [handles, heq, hterms, List.filterMap_append, List.filterMap_cons, ht,
      List.mem_append, List.mem_cons]
    grind
  | false =>
    obtain ⟨heq, x, hx, hxt, htx⟩ := insert_of_not_adds hadds
    obtain ⟨l, hl⟩ := hs.arguments x hx
    -- Neither is less, so the handle is there already.
    obtain rfl : l = h := by
      rw [Term.less_eq hl ht] at hxt
      rw [Term.less_eq ht hl] at htx
      exact Handle.eq_of_not_less hxt htx
    rw [heq]
    refine ⟨.inl, fun hk => hk.elim id ?_⟩
    rintro rfl
    exact List.mem_filterMap.mpr ⟨x, hx, hl⟩

theorem Sorted.insertAll {s : TermSet} (hs : s.Sorted) {ts : List Term}
    (hts : ∀ t ∈ ts, ∃ h, t.handle? = some h) : (s.insertAll ts).Sorted := by
  induction ts generalizing s with
  | nil => exact hs
  | cons t ts ih =>
    obtain ⟨h, ht⟩ := hts t (List.mem_cons_self ..)
    exact ih (hs.insert ht) fun x hx => hts x (List.mem_cons_of_mem t hx)

theorem Sorted.mem_handles_insertAll {s : TermSet} (hs : s.Sorted) {ts : List Term}
    (hts : ∀ t ∈ ts, ∃ h, t.handle? = some h) {k : Handle} :
    k ∈ (s.insertAll ts).handles ↔ k ∈ s.handles ∨ k ∈ ts.filterMap Term.handle? := by
  induction ts generalizing s with
  | nil => simp [TermSet.insertAll]
  | cons t ts ih =>
    obtain ⟨h, ht⟩ := hts t (List.mem_cons_self ..)
    have hrest := ih (hs.insert ht) fun x hx => hts x (List.mem_cons_of_mem t hx)
    rw [hs.mem_handles_insert ht] at hrest
    simp only [List.filterMap_cons, ht, List.mem_cons]
    rw [← or_assoc]
    exact hrest

/-- The handles of a sorted set ascend. -/
theorem Sorted.handles_ascend {s : TermSet} (hs : s.Sorted) :
    s.handles.Pairwise fun h k => h.less k = true := by
  refine List.pairwise_filterMap.mpr (hs.ordered.imp fun {x y} hless h hx k hy => ?_)
  rwa [← Term.less_eq hx hy]

theorem Sorted.nodup_handles {s : TermSet} (hs : s.Sorted) : s.handles.Nodup := by
  refine hs.handles_ascend.imp fun {h k} hless heq => ?_
  rw [heq, Handle.less_irrefl] at hless
  cases hless

end TermSet

namespace Term

theorem mem_extract {kind : TermKind} {condition : Term → Bool} {t x : Term}
    (h : x ∈ (t.extract kind condition).terms) :
    x ∈ t.walk ∧ kind.admits x = true ∧ condition x = true := by
  rcases TermSet.mem_insertAll h with h | h
  · simp [TermSet.empty] at h
  · simpa [and_assoc] using h

theorem handle?_of_admits {t : Term} (h : TermKind.argument.admits t = true) :
    ∃ k, t.handle? = some k := by
  obtain ⟨a, ha⟩ := Option.isSome_iff_exists.mp h
  exact ⟨a.handle, by rw [handle?, ha]; rfl⟩

theorem sorted_extract (condition : Term → Bool) (t : Term) :
    (t.extract .argument condition).Sorted := by
  refine TermSet.sorted_empty.insertAll fun x hx => handle?_of_admits ?_
  simp only [List.mem_filter, Bool.and_eq_true] at hx
  exact hx.2.1

theorem mem_handles_argumentSet {t : Term} {k : Handle} :
    k ∈ t.argumentSet.handles ↔ k ∈ t.handles := by
  have hargs : ∀ x ∈ t.walk.filter (fun s => TermKind.argument.admits s && true), ∃ h,
      x.handle? = some h := by
    intro x hx
    simp only [List.mem_filter, Bool.and_eq_true] at hx
    exact handle?_of_admits hx.2.1
  rw [argumentSet, extract, TermSet.sorted_empty.mem_handles_insertAll hargs]
  simp only [TermSet.handles, TermSet.empty, List.filterMap_nil, List.not_mem_nil, false_or,
    handles, List.mem_filterMap, List.mem_filter, Bool.and_true]
  constructor
  · rintro ⟨x, ⟨hx, -⟩, hk⟩
    exact ⟨x, hx, hk⟩
  · rintro ⟨x, hx, hk⟩
    obtain ⟨a, ha, -⟩ := Option.map_eq_some_iff.mp hk
    exact ⟨x, ⟨hx, by rw [TermKind.admits, ha]; rfl⟩, hk⟩

end Term

end LinearKernels
