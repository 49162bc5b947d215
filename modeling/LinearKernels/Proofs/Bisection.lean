import LinearKernels.TermOrder

/-!
What a bisection finds. Whatever the list, the element at the place found fails the condition and
the one ahead of it satisfies the condition. If the elements that satisfy the condition come
first, the place found is where they end, as a scan from the front finds it.
-/

namespace LinearKernels

namespace Window

variable {holds : Nat → Bool} {n : Nat} {w : Window}

theorem narrow_cases (holds : Nat → Bool) (w : Window) :
    w.size ≤ 1 ∧ w.narrow holds = w ∨
    1 < w.size ∧ holds (w.base + w.size / 2) = true ∧
      w.narrow holds = ⟨w.base + w.size / 2, w.size - w.size / 2⟩ ∨
    1 < w.size ∧ holds (w.base + w.size / 2) = false ∧
      w.narrow holds = ⟨w.base, w.size - w.size / 2⟩ := by
  unfold narrow
  by_cases hsize : w.size ≤ 1
  · exact .inl ⟨hsize, if_pos hsize⟩
  · rw [if_neg hsize]
    cases hmid : holds (w.base + w.size / 2) with
    | true => exact .inr (.inl ⟨by omega, rfl, by simp [hmid]⟩)
    | false => exact .inr (.inr ⟨by omega, rfl, by simp [hmid]⟩)

/-- What is known of a window in a list of `n` elements. Its first place holds, unless that is the
first of all. It ends at a place that does not hold or just behind one, unless that is the end. -/
structure Brackets (holds : Nat → Bool) (n : Nat) (w : Window) : Prop where
  nonempty : 0 < w.size
  inside : w.base + w.size ≤ n
  lower : w.base = 0 ∨ holds w.base = true
  upper : w.base + w.size = n ∨
    ∃ f, w.base < f ∧ holds f = false ∧ (f = w.base + w.size ∨ f + 1 = w.base + w.size)

theorem Brackets.narrow (h : w.Brackets holds n) : (w.narrow holds).Brackets holds n := by
  obtain ⟨hpos, hinside, hlower, hupper⟩ := h
  rcases narrow_cases holds w with ⟨-, heq⟩ | ⟨hsize, hmid, heq⟩ | ⟨hsize, hmid, heq⟩ <;> rw [heq]
  · exact ⟨hpos, hinside, hlower, hupper⟩
  · refine ⟨?_, ?_, .inr hmid, ?_⟩ <;> dsimp only
    · omega
    · omega
    · refine hupper.imp (fun hend => by omega) fun ⟨f, hbase, hf, hend⟩ => ⟨f, ?_, hf, by omega⟩
      -- The middle holds and this place does not, so it is not the middle.
      have hne : f ≠ w.base + w.size / 2 := by
        rintro rfl
        rw [hf] at hmid
        cases hmid
      omega
  · refine ⟨?_, ?_, hlower, .inr ⟨w.base + w.size / 2, ?_, hmid, ?_⟩⟩ <;> dsimp only <;> omega

theorem Brackets.repeat (h : w.Brackets holds n) (rounds : Nat) :
    (Nat.repeat (Window.narrow holds) rounds w).Brackets holds n := by
  induction rounds with
  | zero => exact h
  | succ rounds ih => exact ih.narrow

theorem size_narrow (holds : Nat → Bool) (w : Window) :
    (w.narrow holds).size ≤ max 1 (w.size - 1) := by
  rcases narrow_cases holds w with ⟨hsize, heq⟩ | ⟨hsize, -, heq⟩ | ⟨hsize, -, heq⟩ <;> rw [heq]
  · omega
  · dsimp only
    omega
  · dsimp only
    omega

theorem size_repeat (holds : Nat → Bool) (w : Window) (rounds : Nat) :
    (Nat.repeat (Window.narrow holds) rounds w).size ≤ max 1 (w.size - rounds) := by
  induction rounds with
  | zero => exact Nat.le_max_right ..
  | succ rounds ih =>
    have hstep := size_narrow holds (Nat.repeat (Window.narrow holds) rounds w)
    exact Nat.le_trans hstep (by omega)

end Window

variable {α β : Type} {p : α → Bool} {xs : List α}

theorem forall_mem_of_head? {P : α → Prop} (hhead : ∀ x ∈ xs.head?, P x)
    (hstep : xs.Pairwise fun x y => P x → P y) : ∀ x ∈ xs, P x := by
  cases xs with
  | nil => exact fun x hx => nomatch hx
  | cons y ys =>
    have hy := hhead y rfl
    exact List.forall_mem_cons.mpr ⟨hy, fun x hx => (List.pairwise_cons.mp hstep).1 x hx hy⟩

theorem forall_mem_of_getLast? {P : α → Prop} (hlast : ∀ x ∈ xs.getLast?, P x)
    (hstep : xs.Pairwise fun x y => P y → P x) : ∀ x ∈ xs, P x := by
  intro x hx
  have hhead : ∀ y ∈ xs.reverse.head?, P y := by rwa [List.head?_reverse]
  exact forall_mem_of_head? hhead (List.pairwise_reverse.mpr hstep) x (List.mem_reverse.mpr hx)

/-- The place that a bisection finds, in any list. -/
theorem bisect_spec (p : α → Bool) (xs : List α) :
    bisect p xs ≤ xs.length ∧ (∀ x, xs[bisect p xs]? = some x → p x = false) ∧
      (bisect p xs = 0 ∨ ∃ x, xs[bisect p xs - 1]? = some x ∧ p x = true) := by
  have hheld : ∀ {i : Nat}, (xs[i]?).any p = true → ∃ x, xs[i]? = some x ∧ p x = true :=
    fun h => by simpa [Option.any_eq_true] using h
  have hfailed : ∀ {i : Nat}, (xs[i]?).any p = false → ∀ x, xs[i]? = some x → p x = false := by
    intro i h x hx
    simpa [hx] using h
  unfold bisect
  dsimp only
  cases hxs : xs.length with
  | zero =>
    obtain rfl := List.length_eq_zero_iff.mp hxs
    simp [Nat.repeat]
  | succ n =>
    have hstart : (Window.mk 0 (n + 1)).Brackets (fun i => (xs[i]?).any p) (n + 1) :=
      ⟨Nat.succ_pos n, by simp, .inl rfl, .inl (by simp)⟩
    have hsize := Window.size_repeat (fun i => (xs[i]?).any p) ⟨0, n + 1⟩ (n + 1)
    rw [Nat.sub_self] at hsize
    obtain ⟨hpos, hinside, hlower, hupper⟩ := hstart.repeat (n + 1)
    generalize Nat.repeat _ (n + 1) (Window.mk 0 (n + 1)) =
      last at hsize hpos hinside hlower hupper ⊢
    -- One place is left, and the place behind it is known to fail or is the end.
    have hnext : ∀ x, xs[last.base + 1]? = some x → p x = false := by
      rcases hupper with hend | ⟨f, hbase, hf, hend⟩
      · intro x hx
        have := (List.getElem?_eq_some_iff.mp hx).1
        omega
      · rw [show last.base + 1 = f by omega]
        exact hfailed hf
    split
    · next hlast => exact ⟨by omega, hnext, .inr (hheld hlast)⟩
    · next hlast =>
      exact ⟨by omega, hfailed (by simpa using hlast), hlower.imp_right fun h => absurd h hlast⟩

/-- The list comes apart at the place that a bisection finds. -/
theorem exists_bisected (p : α → Bool) (xs : List α) :
    ∃ before after, xs = before ++ after ∧ before.length = bisect p xs ∧
      (∀ x ∈ before.getLast?, p x = true) ∧ ∀ x ∈ after.head?, p x = false := by
  obtain ⟨hle, hat, hahead⟩ := bisect_spec p xs
  refine ⟨xs.take (bisect p xs), xs.drop (bisect p xs), (List.take_append_drop ..).symm,
    List.length_take_of_le hle, fun x hx => ?_, fun x hx => hat x ?_⟩
  · rw [List.getLast?_take] at hx
    rcases hahead with hzero | ⟨y, hy, hpy⟩
    · simp [hzero] at hx
    · split at hx
      · cases hx
      · rw [hy] at hx
        obtain rfl := Option.some.inj hx
        exact hpy
  · rwa [List.head?_drop] at hx

/-- Where the elements that satisfy the condition come first, a bisection finds what a scan from
the front finds. -/
theorem bisect_eq_length_takeWhile (h : xs.Pairwise fun x y => p y = true → p x = true) :
    bisect p xs = (xs.takeWhile p).length := by
  obtain ⟨before, after, hxs, hlength, hbefore, hafter⟩ := exists_bisected p xs
  rw [hxs] at h
  have hall : ∀ x ∈ before, p x = true :=
    forall_mem_of_getLast? hbefore (List.pairwise_append.mp h).1
  have hnone : after.takeWhile p = [] := by
    cases after with
    | nil => rfl
    | cons x rest => simp [hafter x rfl]
  rw [← hlength, hxs, List.takeWhile_append_of_pos hall, hnone, List.append_nil]

/-- A bisection looks at nothing but the condition. -/
theorem bisect_map {f : α → β} {q : β → Bool} (h : ∀ x ∈ xs, q (f x) = p x) :
    bisect q (xs.map f) = bisect p xs := by
  have hholds : (fun i : Nat => ((xs.map f)[i]?).any q) = fun i => (xs[i]?).any p := by
    funext i
    rw [List.getElem?_map]
    cases hx : xs[i]? with
    | none => rfl
    | some x => exact h x (List.mem_of_getElem? hx)
  unfold bisect
  rw [List.length_map, hholds]

end LinearKernels
