import LinearKernels.Proofs.Assignments
import LinearKernels.Proofs.Renaming

/-!
Keys tell a plan up to the handles of its buffers. The joined keys of all statements can be
read from the left, statement by statement. Leaves with one record number belong together;
since no handle has two records this gives a renaming of the buffers, and the two plans are
the same up to this renaming, widths included.
-/

namespace LinearKernels

namespace Term

/-! ### Reading joined keys -/

/-- What follows the first of several joined keys. -/
def joinedRest (keys : List String) : List Char :=
  if keys = [] then [] else ';' :: (";".intercalate keys).toList

theorem toList_intercalate_cons (key : String) (keys : List String) :
    (";".intercalate (key :: keys)).toList = key.toList ++ joinedRest keys := by
  unfold joinedRest
  split
  · next hnil =>
    subst hnil
    simp
  · next hne => simp [String.intercalate_cons_of_ne_nil hne]

theorem stopsKey_joinedRest (keys : List String) : StopsKey (joinedRest keys) := by
  unfold joinedRest
  split
  · exact ⟨fun _ h => by simp at h, by simp⟩
  · exact ⟨stopsNumeral_cons (by decide), by simp⟩

/-- Equal joined keys come from as many terms, which are alike one by one. -/
theorem alike_of_joined_keys {reg reg' : Registry} {ts ts' : List Term} {ks ks' : List String}
    (hk : ts.mapM (·.key reg) = .ok ks) (hk' : ts'.mapM (·.key reg') = .ok ks')
    (wt : ∀ t ∈ ts, t.WellTyped) (wt' : ∀ t ∈ ts', t.WellTyped) (hne : ts ≠ []) (hne' : ts' ≠ [])
    (h : ";".intercalate ks = ";".intercalate ks') :
    ts.length = ts'.length ∧ ∀ p ∈ ts.zip ts', Alike (SameLeaf reg reg') p.1 p.2 := by
  induction ts generalizing ts' ks ks' with
  | nil => exact absurd rfl hne
  | cons t ts ih =>
    cases ts' with
    | nil => exact absurd rfl hne'
    | cons t' ts' =>
      obtain ⟨k, rest, hkey, hrest, rfl⟩ := Outcome.mapM_cons_eq_ok hk
      obtain ⟨k', rest', hkey', hrest', rfl⟩ := Outcome.mapM_cons_eq_ok hk'
      have htext := congrArg String.toList h
      rw [toList_intercalate_cons, toList_intercalate_cons] at htext
      obtain ⟨halike, htail⟩ := readable reg reg' t t' k k' _ _ hkey hkey'
        (wt t (List.mem_cons_self ..))
        (wt' t' (List.mem_cons_self ..)) (stopsKey_joinedRest rest)
          (stopsKey_joinedRest rest') htext
      have htails : ts.length = ts'.length ∧
          ∀ p ∈ ts.zip ts', Alike (SameLeaf reg reg') p.1 p.2 := by
        cases ts with
        | nil =>
          cases hrest
          cases ts' with
          | nil => exact ⟨rfl, fun p hp => by cases hp⟩
          | cons s' ts' =>
            obtain ⟨k₁, ks₁, -, -, rfl⟩ := Outcome.mapM_cons_eq_ok hrest'
            simp [joinedRest] at htail
        | cons s ts =>
          obtain ⟨k₁, ks₁, -, -, rfl⟩ := Outcome.mapM_cons_eq_ok hrest
          cases ts' with
          | nil =>
            cases hrest'
            simp [joinedRest] at htail
          | cons s' ts' =>
            obtain ⟨k₂, ks₂, -, -, rfl⟩ := Outcome.mapM_cons_eq_ok hrest'
            refine ih hrest hrest' (fun x hx => wt x (List.mem_cons_of_mem t hx))
              (fun x hx => wt' x (List.mem_cons_of_mem t' hx)) (by simp) (by simp) ?_
            exact String.toList_inj.mp (List.cons.inj htail).2
      refine ⟨by simp [htails.1], fun p hp => ?_⟩
      rcases List.mem_cons.mp hp with rfl | hp
      · exact halike
      · exact htails.2 p hp

/-- Alike terms are the same up to a renaming, if their leaves are. -/
theorem erase_eq_rename_of_alike {f : Renaming} {t t' : Term}
    (h : Alike (fun a b => b.erase = a.erase.rename f) t t') : t'.erase = t.erase.rename f := by
  induction h with
  | leaf hab => simp only [erase, rename, hab]
  | unary _ ih => simp only [erase, rename, ih]
  | binary _ _ ihl ihr => simp only [erase, rename, ihl, ihr]
  | matMat _ _ ihl ihr => simp only [erase, rename, ihl, ihr]
  | matVec _ _ ihl ihr => simp only [erase, rename, ihl, ihr]
  | inner _ _ ihl ihr => simp only [erase, rename, ihl, ihr, Option.map_none]

/-- Every leaf of a term has its counterpart in an alike term. -/
theorem Alike.exists_leaf {R : Argument → Argument → Prop} {t t' : Term} (h : Alike R t t')
    {a : Argument} (ha : a ∈ t.leaves) : ∃ b ∈ t'.leaves, R a b := by
  induction h with
  | leaf hab =>
    obtain rfl := List.mem_singleton.mp ha
    exact ⟨_, List.mem_singleton_self _, hab⟩
  | unary _ ih => exact ih ha
  | binary _ _ ihl ihr | matMat _ _ ihl ihr | matVec _ _ ihl ihr | inner _ _ ihl ihr =>
    rcases List.mem_append.mp ha with ha | ha
    · obtain ⟨b, hb, hab⟩ := ihl ha
      exact ⟨b, List.mem_append_left _ hb, hab⟩
    · obtain ⟨b, hb, hab⟩ := ihr ha
      exact ⟨b, List.mem_append_right _ hb, hab⟩

end Term

/-! ### The renaming -/

/-- A one-to-one relation with bounded values is part of a renaming. -/
theorem exists_renaming {R : Nat → Nat → Prop} (bound : Nat)
    (hfun : ∀ a k l, R a k → R a l → k = l) (hinj : ∀ a b k, R a k → R b k → a = b)
    (hbound : ∀ a k, R a k → k < bound) :
    ∃ f : Renaming, ∀ a k, R a k → f.toFun a = k := by
  classical
  let g : Nat → Nat := fun a => if h : ∃ k, R a k then h.choose else bound + a
  have hin : ∀ a k, R a k → g a = k := by
    intro a k hk
    have hex : ∃ k, R a k := ⟨k, hk⟩
    simp only [g, dif_pos hex]
    exact hfun a _ _ hex.choose_spec hk
  have hout : ∀ a, (¬ ∃ k, R a k) → g a = bound + a := fun a hnot => dif_neg hnot
  refine ⟨⟨g, fun a b hab => ?_⟩, hin⟩
  by_cases ha : ∃ k, R a k <;> by_cases hb : ∃ k, R b k
  · obtain ⟨k, hk⟩ := ha
    obtain ⟨l, hl⟩ := hb
    rw [hin a k hk, hin b l hl] at hab
    exact hinj a b k hk (hab ▸ hl)
  · obtain ⟨k, hk⟩ := ha
    rw [hin a k hk, hout b hb] at hab
    have := hbound a k hk
    omega
  · obtain ⟨l, hl⟩ := hb
    rw [hout a ha, hin b l hl] at hab
    have := hbound b l hl
    omega
  · rw [hout a ha, hout b hb] at hab
    omega

namespace Registry

/-- Buffers with records of one number in two registries. -/
def Pairs (reg reg' : Registry) (a b : Nat) : Prop :=
  ∃ (i : Nat) (r r' : Record), reg.records[i]? = some r ∧ reg'.records[i]? = some r' ∧
    r.handle = .buffer a ∧ r'.handle = .buffer b

theorem exists_bound (records : List Record) :
    ∃ bound, ∀ r ∈ records, ∀ k, r.handle = .buffer k → k < bound := by
  induction records with
  | nil => exact ⟨0, fun r hr => by cases hr⟩
  | cons first rest ih =>
    obtain ⟨bound, hbound⟩ := ih
    obtain ⟨n, hn⟩ : ∃ n, ∀ k, first.handle = .buffer k → k < n := by
      cases first.handle with
      | buffer k =>
        refine ⟨k + 1, fun l hl => ?_⟩
        obtain rfl := Handle.buffer.inj hl
        exact Nat.lt_succ_self k
      | temporary i => exact ⟨0, fun l hl => by cases hl⟩
    refine ⟨max bound n, fun r hr k hk => ?_⟩
    rcases List.mem_cons.mp hr with rfl | hr
    · have := hn k hk
      omega
    · have := hbound r hr k hk
      omega

theorem exists_renaming_pairs {reg reg' : Registry} (hs : reg.Sound) (hs' : reg'.Sound) :
    ∃ f : Renaming, ∀ a b, reg.Pairs reg' a b → f.toFun a = b := by
  obtain ⟨bound, hbound⟩ := exists_bound reg'.records
  refine exists_renaming bound ?_ ?_ ?_
  · rintro a k l ⟨i, r, r', hr, hr', hrh, hrh'⟩ ⟨j, s, s', hs₁, hs₂, hsh, hsh'⟩
    obtain rfl : i = j := hs.distinct i j r s hr hs₁ (hrh.trans hsh.symm)
    obtain rfl : r' = s' := Option.some.inj (hr'.symm.trans hs₂)
    exact Handle.buffer.inj (hrh'.symm.trans hsh')
  · rintro a b k ⟨i, r, r', hr, hr', hrh, hrh'⟩ ⟨j, s, s', hs₁, hs₂, hsh, hsh'⟩
    obtain rfl : i = j := hs'.distinct i j r' s' hr' hs₂ (hrh'.trans hsh'.symm)
    obtain rfl : r = s := Option.some.inj (hr.symm.trans hs₁)
    exact Handle.buffer.inj (hrh.symm.trans hsh)
  · rintro a k ⟨i, r, r', -, hr', -, hrh'⟩
    exact hbound r' (List.mem_of_getElem? hr') k hrh'

end Registry

/-! ### Widths -/

/-- The same records, with other widths for some of the given arguments. -/
def Registry.Widened (args : List Argument) (reg reg' : Registry) : Prop :=
  ∀ i : Nat, reg.records[i]? = none ∧ reg'.records[i]? = none ∨
    ∃ (r : Record) (x : Alignment), reg.records[i]? = some r ∧
      reg'.records[i]? = some { r with alignment := x } ∧
      (x = r.alignment ∨ ∃ a ∈ args, a.record = some i)

namespace Registry.Widened

theorem refl (args : List Argument) (reg : Registry) : reg.Widened args reg := by
  intro i
  cases h : reg.records[i]? with
  | none => exact .inl ⟨rfl, rfl⟩
  | some r => exact .inr ⟨r, r.alignment, rfl, rfl, .inl rfl⟩

theorem trans {args : List Argument} {a b c : Registry} (h : a.Widened args b)
    (h' : b.Widened args c) :
    a.Widened args c := by
  intro i
  rcases h i with ⟨ha, hb⟩ | ⟨r, x, ha, hb, hx⟩ <;> rcases h' i with ⟨hb',
    hc⟩ | ⟨s, y, hb', hc, hy⟩
  · exact .inl ⟨ha, hc⟩
  · rw [hb] at hb'
    cases hb'
  · rw [hb] at hb'
    cases hb'
  · obtain rfl := Option.some.inj (hb.symm.trans hb')
    refine .inr ⟨r, y, ha, hc, ?_⟩
    rcases hy with rfl | hy
    · exact hx
    · exact .inr hy

/-- Two registries widened from the same records are the same, if they agree on the widths
that were changed. -/
theorem eq_rename {f : Renaming} {args args' : List Argument}
    {reg a b : Registry} (h : reg.Widened args a) (h' : (reg.rename f).Widened args' b)
    (hargs : ∀ x ∈ args', ∃ y ∈ args, y.record = x.record) (hwidth : ∀ y ∈ args,
      ∀ (i : Nat) (s s' : Record), y.record = some i → a.records[i]? = some s →
      b.records[i]? = some s' → s.alignment = s'.alignment) : b = a.rename f := by
  have hrecords : b.records = (a.rename f).records := by
    refine List.ext_getElem? fun i => ?_
    rw [getElem?_rename]
    rcases h i with ⟨hr, ha⟩ | ⟨r, x, hr, ha, hx⟩ <;>
      rcases h' i with ⟨hr', hb⟩ | ⟨r', x', hr', hb, hx'⟩ <;>
      rw [getElem?_rename, hr] at hr'
    · rw [ha, hb]
      rfl
    · cases hr'
    · cases hr'
    · obtain rfl := Option.some.inj hr'
      have heq : x = x' := by
        rcases hx with rfl | ⟨y, hy, hi⟩
        · rcases hx' with rfl | ⟨z, hz, hi⟩
          · rfl
          · obtain ⟨y, hy, hrecord⟩ := hargs z hz
            exact hwidth y hy i _ _ (hrecord.trans hi) ha hb
        · exact hwidth y hy i _ _ hi ha hb
      rw [ha, hb, heq]
      rfl
  cases b
  exact congrArg Registry.mk hrecords

end Registry.Widened

theorem Argument.widened_setAlignment {args : List Argument} {a : Argument} (ha : a ∈ args)
    {reg reg' : Registry} {width : Nat} (h : a.setAlignment reg width = .ok reg') :
    reg.Widened args reg' := by
  obtain ⟨alignment, -, h⟩ := Outcome.bind_eq_ok_iff.mp h
  obtain ⟨i, hi, h⟩ := Outcome.bind_eq_ok_iff.mp h
  obtain ⟨r, hr, h⟩ := Outcome.bind_eq_ok_iff.mp h
  obtain rfl := Except.ok.inj h
  have hrecord : a.record = some i := by
    rw [Argument.id] at hi
    cases ha : a.record with
    | none => simp [ha] at hi
    | some j =>
      rw [ha] at hi
      rw [Except.ok.inj hi]
  intro j
  by_cases hij : i = j
  · subst hij
    refine .inr ⟨r, r.alignment.raise alignment, Registry.get_eq_ok_iff.mp hr, ?_,
      .inr ⟨a, ha, hrecord⟩⟩
    simp [Registry.modify, Registry.get_eq_ok_iff.mp hr, Record.raiseAlignment]
  · have hsame : (reg.modify i (·.raiseAlignment alignment)).records[j]? = reg.records[j]? := by
      simp [Registry.modify, hij]
    cases hj : reg.records[j]? with
    | none => exact .inl ⟨rfl, hsame.trans hj⟩
    | some s => exact .inr ⟨s, s.alignment, rfl, hsame.trans hj, .inl rfl⟩

theorem widened_setAlignments {args more : List Argument}
    (hsub : ∀ a ∈ more, a ∈ args) {width : Nat} {reg reg' : Registry}
    (h : more.foldlM (fun reg a => a.setAlignment reg width) reg = .ok reg') :
    reg.Widened args reg' := by
  induction more generalizing reg with
  | nil =>
    obtain rfl := Except.ok.inj h
    exact Registry.Widened.refl args reg
  | cons a more ih =>
    rw [List.foldlM_cons] at h
    obtain ⟨reg₁, h₁, h⟩ := Outcome.bind_eq_ok_iff.mp h
    exact (Argument.widened_setAlignment (hsub a (List.mem_cons_self ..)) h₁).trans
      (ih (fun b hb => hsub b (List.mem_cons_of_mem a hb)) h)

namespace Plan

/-- Widening changes the widths of vector leaves and nothing else. -/
theorem widened_of_widen {plan plan' : Plan} {alignment : Alignment}
    (h : plan.widen alignment = .ok plan') :
    plan'.statements = plan.statements ∧ plan'.passes = plan.passes ∧
      plan.registry.Widened plan.vectorLeaves plan'.registry := by
  unfold widen at h
  split at h
  · obtain rfl := Except.ok.inj h
    exact ⟨rfl, rfl, Registry.Widened.refl _ _⟩
  · obtain ⟨reg, hreg, h⟩ := Outcome.bind_eq_ok_iff.mp h
    obtain rfl := Except.ok.inj h
    exact ⟨rfl, rfl, widened_setAlignments (fun _ ha => ha) hreg⟩

/-- The second plan is the first one with other handles for the buffers. -/
structure Renames (f : Renaming) (plan plan' : Plan) : Prop where
  trees : plan'.statements.map (·.tree) = plan.statements.map (·.tree.rename f)
  passes : plan'.passes = plan.passes
  registry : plan'.registry = plan.registry.rename f

end Plan

namespace Term

theorem arguments_rename {f : Renaming} (t : Term) :
    (t.rename f).arguments = t.arguments.map (·.rename f) := by
  rw [arguments, arguments, walk_rename, List.filterMap_map, List.map_filterMap]
  congr 1
  funext s
  exact argument?_rename s

/-- A vector that a walk meets is a leaf. -/
theorem mem_leaves_of_isVector {env : Declarations} {ctx : Context}
    {t : Term} (h : t.BoundIn env ctx) {a : Argument} (ha : a ∈ t.arguments)
    (hvector : a.storage.isVector = true) : a ∈ t.leaves := by
  have pair : ∀ {l r t : Term}, t.walk = l.walk ++ r.walk ++ [t] → t.argument? = none →
      (a ∈ l.arguments → a ∈ l.leaves) → (a ∈ r.arguments → a ∈ r.leaves) →
      a ∈ t.arguments → a ∈ l.leaves ++ r.leaves := by
    intro l r t hwalk hnone hl hr ha
    rw [Term.arguments, hwalk, List.filterMap_append, List.filterMap_append] at ha
    simp only [List.filterMap_cons, hnone, List.filterMap_nil, List.append_nil,
      List.mem_append] at ha
    exact List.mem_append.mpr (ha.imp hl hr)
  induction t with
  | leaf arg => simpa [arguments, walk, argument?, leaves] using ha
  | unary op sub ih => exact ih h (by simpa [arguments, walk, argument?] using ha)
  | binary op lhs rhs ihl ihr => exact pair rfl rfl (ihl h.1) (ihr h.2) ha
  | matMat lhs rhs ihl ihr => exact pair rfl rfl (ihl h.1) (ihr h.2) ha
  | matVec lhs rhs ihl ihr => exact pair rfl rfl (ihl h.1) (ihr h.2) ha
  | inner lhs rhs computed temporary ihl ihr =>
    obtain ⟨hl, hr, cell, rfl, i, key, -, -, -, -, hstorage, -⟩ := h
    cases computed with
    | none => exact pair rfl rfl (ihl hl) (ihr hr) ha
    | some pass =>
      obtain rfl : a = cell := by simpa [arguments, walk, argument?] using ha
      rw [hstorage] at hvector
      cases hvector

end Term

/-! ### Plans -/

theorem exists_mem_zip {α β : Type} {xs : List α} {ys : List β} (hlength : xs.length = ys.length)
    {x : α} (hx : x ∈ xs) : ∃ y, (x, y) ∈ xs.zip ys := by
  induction xs generalizing ys with
  | nil => cases hx
  | cons first xs ih =>
    cases ys with
    | nil => simp at hlength
    | cons y ys =>
      rcases List.mem_cons.mp hx with rfl | hx
      · exact ⟨y, List.mem_cons_self ..⟩
      · obtain ⟨z, hz⟩ := ih (Nat.succ.inj hlength) hx
        exact ⟨z, List.mem_cons_of_mem _ hz⟩

theorem map_eq_map_of_zip {α β γ : Type} {g : α → γ} {g' : β → γ} {xs : List α} {ys : List β}
    (hlength : xs.length = ys.length) (h : ∀ p ∈ xs.zip ys, g' p.2 = g p.1) :
    ys.map g' = xs.map g := by
  induction xs generalizing ys with
  | nil =>
    obtain rfl : ys = [] := List.eq_nil_of_length_eq_zero hlength.symm
    rfl
  | cons x xs ih =>
    cases ys with
    | nil => simp at hlength
    | cons y ys =>
      rw [List.map_cons, List.map_cons, ih (Nat.succ.inj hlength) fun p hp =>
        h p (List.mem_cons_of_mem _ hp), h (x, y) (List.mem_cons_self ..)]

namespace Plan

section Keys

variable {env env' : Declarations} {statements statements' : List Statement} {plan plan' : Plan}
  {d d' : Draft}

theorem Built.sound (h : plan.Built env statements d) : d.context.registry.Sound :=
  h.reachable.sound.registry

/-- The record of a leaf, in the draft and in the plan. -/
theorem Built.leaf_record (h : plan.Built env statements d)
    {t : Term} (ht : t ∈ plan.statements.map (·.tree)) {a : Argument} (ha : a ∈ t.leaves) :
    ∃ (i k : Nat) (r s : Record), a.record = some i ∧
      a.handle = .buffer k ∧ d.context.registry.records[i]? = some r ∧ r.Agrees a ∧
      plan.registry.records[i]? = some s ∧ s.id = i ∧ s.element = a.element := by
  obtain ⟨statement, hstatement, rfl⟩ := List.mem_map.mp ht
  have hplanned := h.planned statement hstatement
  obtain ⟨op, target, value, hbody⟩ := hplanned.bodyOf
  obtain ⟨k, hk, -⟩ := hbody.declared a ha
  obtain ⟨i, r, hi, hr, hagree⟩ := hplanned.bound.leavesBound a ha
  obtain ⟨s, hs, hkeeps⟩ := h.keeps i r hr
  exact ⟨i, k, r, s, hi, hk, hr, hagree, hs, hkeeps.id.trans (h.sound.numbered i r hr),
    hkeeps.element.trans hagree.2.1⟩

/-- A record of a plan as it was before widening. -/
theorem Built.record_origin (h : plan.Built env statements d) {i : Nat} {r : Record}
    (hr : plan.registry.records[i]? = some r) :
    ∃ r₀, d.context.registry.records[i]? = some r₀ ∧ r₀.handle = r.handle ∧
      r₀.element = r.element := by
  obtain ⟨alignment, hwiden⟩ := h.widened
  obtain ⟨-, -, hwidened⟩ := widened_of_widen hwiden
  rcases hwidened i with ⟨-, hnone⟩ | ⟨r₀, x, hr₀, hsome, -⟩
  · rw [hnone] at hr
    cases hr
  · obtain rfl := Option.some.inj (hsome.symm.trans hr)
    exact ⟨r₀, hr₀, rfl, rfl⟩

/-- The statements a plan was built from are lawful. -/
theorem Built.lawful (h : plan.Built env statements d) : ∀ s ∈ statements, s.Lawful env := by
  intro s hs
  rw [← h.source] at hs
  obtain ⟨planned, hplanned, rfl⟩ := List.mem_map.mp hs
  exact (h.planned planned hplanned).lawful

/-- The leaves of the plan are those of the statements it was built from. -/
theorem Built.source_leaf (h : plan.Built env statements d)
    {t : Term} (ht : t ∈ plan.statements.map (·.tree)) {a : Argument} (ha : a ∈ t.leaves) :
    ∃ s ∈ statements, a.erase ∈ s.tree.leaves := by
  obtain ⟨planned, hplanned, rfl⟩ := List.mem_map.mp ht
  refine ⟨{ planned with tree := planned.tree.erase }, ?_, ?_⟩
  · rw [← h.source]
    exact List.mem_map_of_mem hplanned
  · rw [Term.leaves_erase]
    exact List.mem_map_of_mem ha

theorem Built.planned_leaf (h : plan.Built env statements d) {s : Statement} (hs : s ∈ statements)
    {a : Argument} (ha : a ∈ s.tree.leaves) :
    ∃ t ∈ plan.statements.map (·.tree), ∃ b ∈ t.leaves, b.erase = a := by
  rw [← h.source] at hs
  obtain ⟨planned, hplanned, rfl⟩ := List.mem_map.mp hs
  obtain ⟨b, hb, rfl⟩ := List.mem_map.mp (Term.leaves_erase planned.tree ▸ ha)
  exact ⟨planned.tree, List.mem_map_of_mem hplanned, b, hb, rfl⟩

/-- Every buffer with a record is a leaf of some statement. -/
theorem Built.exists_leaf (h : plan.Built env statements d) {i k : Nat} {r : Record}
    (hr : d.context.registry.records[i]? = some r) (hk : r.handle = .buffer k) :
    ∃ t ∈ plan.statements.map (·.tree), ∃ a ∈ t.leaves, a.record = some i ∧ r.Agrees a := by
  obtain ⟨t, ht, a, ha, hhandle⟩ :
      ∃ t ∈ plan.statements.map (·.tree), ∃ a ∈ t.leaves, a.handle = .buffer k := by
    refine Classical.byContradiction fun hnot => ?_
    -- The statements say nothing about the buffer, so its record would suit every declaration.
    let other (e : ElementType) : Declarations :=
      fun j => if j = k then (e, .deviceScalar) else env j
    have hlawful : ∀ e, ∀ s ∈ statements, s.Lawful (other e) := by
      intro e s hs
      refine (h.lawful s hs).redeclare fun a ha => ?_
      obtain ⟨t, ht, b, hb, rfl⟩ := h.planned_leaf hs ha
      obtain ⟨planned, hplanned, rfl⟩ := List.mem_map.mp ht
      obtain ⟨op, target, value, hbody⟩ := (h.planned planned hplanned).bodyOf
      obtain ⟨j, hj, hdeclared⟩ := hbody.declared b hb
      have hne : j ≠ k := by
        rintro rfl
        exact hnot ⟨planned.tree, ht, b, hb, hj⟩
      exact ⟨j, hj, (if_neg hne).trans hdeclared⟩
    have helement : ∀ e, r.element = e := by
      intro e
      obtain ⟨planned, d', hdrafted, hreach, -⟩ := Draft.addStatements_ok (hlawful e) .empty
      obtain ⟨-, rfl⟩ := Prod.mk.inj (Except.ok.inj (hdrafted.symm.trans h.drafted))
      simpa [other] using (hreach.sound.buffers i r k hr hk).1
    exact absurd ((helement .float).symm.trans (helement .int)) (by decide)
  obtain ⟨j, -, r', -, hj, -, hr', hagrees, -⟩ := h.leaf_record ht ha
  obtain rfl : i = j :=
    h.sound.distinct i j r r' hr hr' (hk.trans (hhandle.symm.trans hagrees.1.symm))
  obtain rfl := Option.some.inj (hr.symm.trans hr')
  exact ⟨t, ht, a, ha, hj, hagrees⟩

/-- Leaves that are written alike in the keys of two plans have records of one number. -/
theorem record_of_sameLeaf (h : plan.Built env statements d)
    (h' : plan'.Built env' statements' d') {t t' : Term} (ht : t ∈ plan.statements.map (·.tree))
    (ht' : t' ∈ plan'.statements.map (·.tree)) {a b : Argument} (ha : a ∈ t.leaves)
    (hb : b ∈ t'.leaves) (hsame : Term.SameLeaf plan.registry plan'.registry a b) :
    b.storage = a.storage ∧ b.element = a.element ∧
      (∀ k l, a.handle = .buffer k → b.handle = .buffer l →
        d.context.registry.Pairs d'.context.registry k l) ∧
      ∃ (i : Nat) (s s' : Record), a.record = some i ∧ plan.registry.records[i]? = some s ∧
        plan'.registry.records[i]? = some s' ∧ s.SameKey a.storage s' := by
  obtain ⟨i, k, r, s, hi, -, hr, hagree, hs, hid, helement⟩ := h.leaf_record ht ha
  obtain ⟨j, l, r', s', hj, -, hr', hagree', hs', hid', helement'⟩ := h'.leaf_record ht' hb
  obtain ⟨hstorage, x, x', hx, hx', hkey⟩ := hsame
  obtain ⟨i', hi', hx⟩ := Argument.info_eq_ok_iff.mp hx
  obtain ⟨j', hj', hx'⟩ := Argument.info_eq_ok_iff.mp hx'
  obtain rfl := Option.some.inj (hi.symm.trans hi')
  obtain rfl := Option.some.inj (hj.symm.trans hj')
  obtain rfl := Option.some.inj (hs.symm.trans hx)
  obtain rfl := Option.some.inj (hs'.symm.trans hx')
  obtain rfl : i = j := hid.symm.trans (hkey.1.trans hid')
  refine ⟨hstorage.symm, ?_, ?_, i, s, s', hi, hs, hs', hkey⟩
  · rw [← helement, ← helement', hkey.2.1]
  · intro k' l' hk' hl'
    exact ⟨i, r, r', hr, hr', hagree.1.trans hk', hagree'.1.trans hl'⟩

theorem Built.wellTyped (h : plan.Built env statements d) :
    ∀ t ∈ plan.statements.map (·.tree), t.WellTyped := by
  intro t ht
  obtain ⟨statement, hstatement, rfl⟩ := List.mem_map.mp ht
  obtain ⟨op, target, value, hbody⟩ := (h.planned statement hstatement).bodyOf
  exact hbody.typed

theorem keys_eq (plan : Plan) :
    plan.keys = (plan.statements.map (·.tree)).mapM (·.key plan.registry) := by
  rw [List.mapM_map]
  rfl

theorem vectorLeaves_eq (plan : Plan) : plan.vectorLeaves =
    (plan.statements.map (·.tree)).flatMap fun t => t.arguments.filter (·.storage.isVector) := by
  rw [List.flatMap_map]
  rfl

/-- Plans with the same joined keys are the same up to the handles of their buffers. -/
theorem exists_renames (h : plan.Built env statements d) (h' : plan'.Built env' statements' d')
    (hne : plan.statements ≠ []) (hne' : plan'.statements ≠ []) {ks ks' : List String}
    (hk : plan.keys = .ok ks) (hk' : plan'.keys = .ok ks')
    (heq : ";".intercalate ks = ";".intercalate ks') : ∃ f, plan.Renames f plan' := by
  rw [keys_eq] at hk hk'
  obtain ⟨hlength, halike⟩ := Term.alike_of_joined_keys hk hk' h.wellTyped h'.wellTyped
    (by simpa using hne) (by simpa using hne') heq
  obtain ⟨f, hf⟩ := Registry.exists_renaming_pairs h.sound h'.sound
  -- The statements themselves are renamed.
  have hsource : statements'.map (·.tree) = statements.map (·.tree.rename f) := by
    rw [← h.source, ← h'.source, List.map_map, List.map_map]
    have herased : (plan'.statements.map (·.tree)).map Term.erase =
        (plan.statements.map (·.tree)).map (·.erase.rename f) := by
      refine map_eq_map_of_zip hlength fun p hp => ?_
      obtain ⟨hp₁, hp₂⟩ := List.of_mem_zip hp
      refine Term.erase_eq_rename_of_alike ((halike p hp).mono fun a ha b hb hsame => ?_)
      obtain ⟨hstorage, helement, hpairs, -⟩ := record_of_sameLeaf h h' hp₁ hp₂ ha hb hsame
      obtain ⟨-, k, -, -, -, hk, -⟩ := h.leaf_record hp₁ ha
      obtain ⟨-, l, -, -, -, hl, -⟩ := h'.leaf_record hp₂ hb
      simp only [Argument.erase, Argument.rename, hk, hl, hstorage, helement, Handle.rename,
        hf k l (hpairs k l hk hl)]
    rw [List.map_map, List.map_map] at herased
    exact herased
  -- So planning them gives renamed drafts.
  obtain ⟨planned, hplanned, htrees⟩ := Draft.addStatements_rename hsource h.drafted
  obtain ⟨rfl, rfl⟩ := Prod.mk.inj (Except.ok.inj (h'.drafted.symm.trans hplanned))
  obtain ⟨alignment, hwiden⟩ := h.widened
  obtain ⟨alignment', hwiden'⟩ := h'.widened
  obtain ⟨-, hpasses, hwidened⟩ := widened_of_widen hwiden
  obtain ⟨-, hpasses', hwidened'⟩ := widened_of_widen hwiden'
  -- Widened leaves show their widths in the keys.
  have hwidth : ∀ a ∈ Plan.vectorLeaves ⟨plan.statements, d.passes, d.context⟩,
      ∀ (i : Nat) (s s' : Record),
      a.record = some i → plan.registry.records[i]? = some s →
      plan'.registry.records[i]? = some s' → s.alignment = s'.alignment := by
    intro a ha i s s' hi hs hs'
    obtain ⟨statement, hstatement, ha⟩ := List.mem_flatMap.mp ha
    obtain ⟨ha, hvector⟩ := List.mem_filter.mp ha
    have hleaf := Term.mem_leaves_of_isVector (h.planned statement hstatement).bound ha hvector
    have hmem : statement.tree ∈ plan.statements.map (·.tree) := List.mem_map_of_mem hstatement
    obtain ⟨t', ht'⟩ := exists_mem_zip hlength hmem
    obtain ⟨b, hb, hsame⟩ := (halike _ ht').exists_leaf hleaf
    obtain ⟨-, -, -, j, x, x', hj, hx, hx', hkey⟩ :=
      record_of_sameLeaf h h' hmem (List.of_mem_zip ht').2 hleaf hb hsame
    obtain rfl := Option.some.inj (hi.symm.trans hj)
    obtain rfl := Option.some.inj (hs.symm.trans hx)
    obtain rfl := Option.some.inj (hs'.symm.trans hx')
    refine hkey.2.2 ?_
    cases hstorage : a.storage <;> simp_all [Storage.isVector, Storage.shape]
  refine ⟨f, htrees, hpasses'.trans hpasses.symm, hwidened.eq_rename hwidened' ?_ hwidth⟩
  intro x hx
  rw [vectorLeaves_eq, htrees] at hx
  obtain ⟨t, ht, hx⟩ := List.mem_flatMap.mp hx
  obtain ⟨statement, hstatement, rfl⟩ := List.mem_map.mp ht
  obtain ⟨hx, hvector⟩ := List.mem_filter.mp hx
  rw [Term.arguments_rename] at hx
  obtain ⟨y, hy, rfl⟩ := List.mem_map.mp hx
  exact ⟨y, List.mem_flatMap.mpr ⟨statement, hstatement, List.mem_filter.mpr ⟨hy, hvector⟩⟩, rfl⟩

end Keys

end Plan

end LinearKernels
