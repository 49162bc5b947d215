import LinearKernels.Scope

/-!
Computations that end in a value or in a fault. A sequence of computations ends in a value
exactly if every step does; so a value at the end can be taken apart step by step.
-/

namespace LinearKernels

namespace Outcome

variable {ε α β γ : Type}

theorem bind_eq_ok_iff {x : Except ε α} {f : α → Except ε β} {b : β} :
    (x >>= f) = .ok b ↔ ∃ a, x = .ok a ∧ f a = .ok b := by
  cases x with
  | error e => simp [bind, Except.bind]
  | ok a => simp [bind, Except.bind]

@[simp] theorem ok_bind (a : α) (f : α → Except ε β) : (Except.ok a >>= f) = f a :=
  rfl

@[simp] theorem error_bind (e : ε) (f : α → Except ε β) :
    (Except.error e >>= f) = Except.error e :=
  rfl

@[simp] theorem map_ok (f : α → β) (a : α) : f <$> (Except.ok a : Except ε α) = .ok (f a) :=
  rfl

@[simp] theorem pure_eq_ok (a : α) : (pure a : Except ε α) = .ok a :=
  rfl

/-- A list is gone through successfully if every entry is, and what holds of every result
holds of all of them. -/
theorem mapM_forall_ok {f : α → Except ε β} {P : β → Prop} {xs : List α}
    (h : ∀ x ∈ xs, ∃ y, f x = .ok y ∧ P y) : ∃ ys, xs.mapM f = .ok ys ∧ ∀ y ∈ ys, P y := by
  induction xs with
  | nil => exact ⟨[], rfl, fun y hy => by cases hy⟩
  | cons x xs ih =>
    obtain ⟨y, hy, hPy⟩ := h x (List.mem_cons_self ..)
    obtain ⟨ys, hys, hPys⟩ := ih fun z hz => h z (List.mem_cons_of_mem x hz)
    refine ⟨y :: ys, by rw [List.mapM_cons, hy, hys]; rfl, fun z hz => ?_⟩
    rcases List.mem_cons.mp hz with rfl | hz
    · exact hPy
    · exact hPys z hz

theorem mapM_ok {f : α → Except ε β} {xs : List α} (h : ∀ x ∈ xs, ∃ y, f x = .ok y) :
    ∃ ys, xs.mapM f = .ok ys := by
  obtain ⟨ys, hys, -⟩ := mapM_forall_ok (P := fun _ => True) fun x hx =>
    (h x hx).imp fun _ hy => ⟨hy, trivial⟩
  exact ⟨ys, hys⟩

theorem mapM_cons_eq_ok {g : α → Except ε β} {x : α} {xs : List α} {ys : List β}
    (h : (x :: xs).mapM g = .ok ys) :
    ∃ z zs, g x = .ok z ∧ xs.mapM g = .ok zs ∧ ys = z :: zs := by
  rw [List.mapM_cons] at h
  obtain ⟨z, hz, h⟩ := bind_eq_ok_iff.mp h
  obtain ⟨zs, hzs, h⟩ := bind_eq_ok_iff.mp h
  exact ⟨z, zs, hz, hzs, (Except.ok.inj h).symm⟩

/-- Of several faults the first one is reported. -/
theorem mapM_eq_error_iff {f : α → Except ε β} {xs : List α} {e : ε} :
    xs.mapM f = .error e ↔ ∃ before x after, xs = before ++ x :: after ∧
      (∀ y ∈ before, ∃ z, f y = .ok z) ∧ f x = .error e := by
  induction xs with
  | nil => simp
  | cons x xs ih =>
    rw [List.mapM_cons]
    cases hx : f x with
    | error e' =>
      simp only [error_bind, Except.error.injEq]
      constructor
      · rintro rfl
        exact ⟨[], x, xs, rfl, by simp, hx⟩
      · rintro ⟨before, y, after, heq, hbefore, hy⟩
        rcases List.cons_eq_append_iff.mp heq with ⟨rfl, hcons⟩ | ⟨rest, rfl, -⟩
        · obtain ⟨rfl, -⟩ := List.cons.inj hcons
          exact Except.error.inj (hx.symm.trans hy)
        · obtain ⟨z, hz⟩ := hbefore x List.mem_cons_self
          rw [hx] at hz
          cases hz
    | ok z =>
      have hrest : (Except.ok z >>= fun z => xs.mapM f >>= fun zs => pure (z :: zs)) = .error e ↔
          xs.mapM f = .error e := by
        cases xs.mapM f <;> simp
      rw [hrest, ih]
      constructor
      · rintro ⟨before, y, after, rfl, hbefore, hy⟩
        refine ⟨x :: before, y, after, rfl, fun w hw => ?_, hy⟩
        rcases List.mem_cons.mp hw with rfl | hw
        · exact ⟨z, hx⟩
        · exact hbefore w hw
      · rintro ⟨before, y, after, heq, hbefore, hy⟩
        rcases List.cons_eq_append_iff.mp heq with ⟨rfl, hcons⟩ | ⟨rest, rfl, rfl⟩
        · obtain ⟨rfl, -⟩ := List.cons.inj hcons
          rw [hx] at hy
          cases hy
        · exact ⟨rest, y, after, rfl, fun w hw => hbefore w (List.mem_cons_of_mem x hw), hy⟩

theorem exists_mapM_ok_iff {f : α → Except ε β} {xs : List α} :
    (∃ ys, xs.mapM f = .ok ys) ↔ ∀ x ∈ xs, ∃ y, f x = .ok y := by
  refine ⟨?_, mapM_ok⟩
  rintro ⟨ys, hys⟩
  induction xs generalizing ys with
  | nil => exact fun x hx => by cases hx
  | cons x xs ih =>
    obtain ⟨z, zs, hz, hzs, rfl⟩ := mapM_cons_eq_ok hys
    intro y hy
    rcases List.mem_cons.mp hy with rfl | hy
    · exact ⟨z, hz⟩
    · exact ih zs hzs y hy

theorem length_of_mapM {f : α → Except ε β} {xs : List α} {ys : List β} (h : xs.mapM f = .ok ys) :
    ys.length = xs.length := by
  induction xs generalizing ys with
  | nil => simp [← Except.ok.inj h]
  | cons x xs ih =>
    obtain ⟨z, zs, -, hzs, rfl⟩ := mapM_cons_eq_ok h
    rw [List.length_cons, List.length_cons, ih hzs]

/-- Lists that are gone through with the same results are the same if equal results come from
equal entries. -/
theorem eq_of_mapM_eq {g : α → Except ε β} {xs ys : List α}
    {zs : List β} (hx : xs.mapM g = .ok zs) (hy : ys.mapM g = .ok zs)
    (hinj : ∀ x ∈ xs, ∀ y ∈ ys, ∀ z, g x = .ok z → g y = .ok z → x = y) :
    xs = ys := by
  induction xs generalizing ys zs with
  | nil =>
    obtain rfl := Except.ok.inj hx
    cases ys with
    | nil => rfl
    | cons y ys =>
      obtain ⟨z, zs, -, -, heq⟩ := mapM_cons_eq_ok hy
      cases heq
  | cons x xs ih =>
    obtain ⟨z, zs, hz, hzs, rfl⟩ := mapM_cons_eq_ok hx
    cases ys with
    | nil => cases hy
    | cons y ys =>
      obtain ⟨w, ws, hw, hws, heq⟩ := mapM_cons_eq_ok hy
      obtain ⟨rfl, rfl⟩ := List.cons.inj heq
      rw [hinj x (List.mem_cons_self ..) y (List.mem_cons_self ..) z hz hw,
        ih hzs hws fun a ha b hb => hinj a (List.mem_cons_of_mem x ha) b
          (List.mem_cons_of_mem y hb)]

theorem eq_filterMap_of_mapM {g : α → Except ε β} {xs : List α} {zs : List β}
    (h : xs.mapM g = .ok zs) :
    zs = xs.filterMap fun x => (g x).toOption := by
  induction xs generalizing zs with
  | nil =>
    obtain rfl := Except.ok.inj h
    rfl
  | cons x xs ih =>
    obtain ⟨z, zs, hz, hzs, rfl⟩ := mapM_cons_eq_ok h
    rw [List.filterMap_cons_some (by rw [hz]; rfl), ← ih hzs]

theorem perm_of_mapM {g : α → Except ε β} {xs ys : List α} (h : xs.Perm ys) {zs ws : List β}
    (hx : xs.mapM g = .ok zs) (hy : ys.mapM g = .ok ws) : zs.Perm ws := by
  rw [eq_filterMap_of_mapM hx, eq_filterMap_of_mapM hy]
  exact h.filterMap _

theorem mapM_congr {g g' : α → Except ε β} {xs : List α} (h : ∀ x ∈ xs, g x = g' x) :
    xs.mapM g = xs.mapM g' := by
  induction xs with
  | nil => rfl
  | cons x xs ih =>
    rw [List.mapM_cons, List.mapM_cons, h x (List.mem_cons_self ..),
      ih fun y hy => h y (List.mem_cons_of_mem x hy)]

theorem mapM_map_eq_ok {g : α → Except ε β} {g' : α → Except ε γ} {φ : β → γ}
    (h : ∀ x y, g x = .ok y → g' x = .ok (φ y)) {xs : List α} {ys : List β}
    (hxs : xs.mapM g = .ok ys) :
    xs.mapM g' = .ok (ys.map φ) := by
  induction xs generalizing ys with
  | nil =>
    obtain rfl := Except.ok.inj hxs
    rfl
  | cons x xs ih =>
    obtain ⟨y, ys, hy, hys, rfl⟩ := mapM_cons_eq_ok hxs
    rw [List.mapM_cons, h x y hy, ih hys]
    rfl

/-- A list that is gone through twice has its results side by side. -/
theorem mapM_zip {g g' : α → Except ε β} {xs : List α} {ys ys' : List β} (h : xs.mapM g = .ok ys)
    (h' : xs.mapM g' = .ok ys') : ys.length = ys'.length ∧
      (∀ p ∈ ys.zip ys', ∃ x ∈ xs, g x = .ok p.1 ∧ g' x = .ok p.2) ∧
      ∀ x ∈ xs, ∃ p ∈ ys.zip ys', g x = .ok p.1 ∧ g' x = .ok p.2 := by
  induction xs generalizing ys ys' with
  | nil =>
    obtain rfl := Except.ok.inj h
    obtain rfl := Except.ok.inj h'
    simp
  | cons x xs ih =>
    obtain ⟨y, ys, hy, hys, rfl⟩ := mapM_cons_eq_ok h
    obtain ⟨y', ys', hy', hys', rfl⟩ := mapM_cons_eq_ok h'
    obtain ⟨hlength, hpair, hentry⟩ := ih hys hys'
    refine ⟨congrArg (· + 1) hlength, fun p hp => ?_, fun w hw => ?_⟩
    · rcases List.mem_cons.mp hp with rfl | hp
      · exact ⟨x, List.mem_cons_self .., hy, hy'⟩
      · obtain ⟨w, hw, heq⟩ := hpair p hp
        exact ⟨w, List.mem_cons_of_mem x hw, heq⟩
    · rcases List.mem_cons.mp hw with rfl | hw
      · exact ⟨(y, y'), List.mem_cons_self .., hy, hy'⟩
      · obtain ⟨p, hp, heq⟩ := hentry w hw
        exact ⟨p, List.mem_cons_of_mem _ hp, heq⟩

theorem toOption_eq_some_iff {x : Except ε α} {a : α} : x.toOption = some a ↔ x = .ok a := by
  cases x with
  | error e => simp [Except.toOption]
  | ok b => simp [Except.toOption]

/-- A value that is known to be there, with what is known of it. -/
theorem exists_ok_of_map {x : Except ε α} {f : α → β} {b : β} (h : x.toOption.map f = some b) :
    ∃ a, x = .ok a ∧ f a = b := by
  cases x with
  | error e => cases h
  | ok a => exact ⟨a, rfl, Option.some.inj h⟩

/-- A value that is known to be there and to pass a test. -/
theorem exists_ok_of_any {x : Except ε α} {p : α → Bool} (h : x.toOption.any p = true) :
    ∃ a, x = .ok a ∧ p a = true := by
  cases x with
  | error e => cases h
  | ok a => exact ⟨a, rfl, h⟩

theorem both_eq_ok_iff {x : Checked α} {y : Checked β} {p : α × β} :
    Checked.both x y = .ok p ↔ x = .ok p.1 ∧ y = .ok p.2 := by
  obtain ⟨a, b⟩ := p
  cases x <;> cases y <;> simp [Checked.both]

end Outcome

end LinearKernels
