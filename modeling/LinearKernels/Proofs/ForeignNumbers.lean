import LinearKernels.Proofs.Rebinding

/-!
Texts of a bound term against another registry. A leaf remembers the number of its record and
not the registry that gave the number out. Every text is put together from the records with
the numbers of certain leaves and temporaries, which are read one after the other; so against
another registry it is put together from the records that have these numbers there. The term is
found to be unbound exactly if the registry is too small for a number, before anything else is
missing.
-/

namespace LinearKernels

/-! ### What texts read -/

/-- A record that a text reads: that of an argument. Where a kernel is given, the text is the
name of the buffer in that kernel. -/
structure Reading where
  argument : Argument
  kernel : Option Nat
deriving DecidableEq

namespace Reading

def fetch (reg : Registry) (x : Reading) : Except Fault Record := do
  let r ← x.argument.info reg
  match x.kernel with
  | none => return r
  | some pass =>
    let _ ← r.accessName pass
    return r

/-- The text is put together from the records of the readings, in any registry. -/
def Render (readings : List Reading) (text : Registry → Except Fault String) : Prop :=
  ∃ render : List Record → String, ∀ reg, text reg = render <$> readings.mapM (fetch reg)

variable {xs ys : List Reading} {text left right : Registry → Except Fault String}

theorem render_single {x : Reading} {f : Record → String}
    (h : ∀ reg, text reg = f <$> x.fetch reg) :
    Render [x] text := by
  refine ⟨fun records => (records.head?.map f).getD "", fun reg => ?_⟩
  rw [h reg, List.mapM_cons]
  cases x.fetch reg <;> rfl

theorem Render.map (h : Render xs text) (f : String → String) :
    Render xs fun reg => do return f (← text reg) := by
  obtain ⟨render, h⟩ := h
  refine ⟨fun records => f (render records), fun reg => ?_⟩
  simp only [h reg]
  cases xs.mapM (fetch reg) <;> rfl

/-- The records of the left text are read before those of the right one. -/
theorem Render.join (hl : Render xs left) (hr : Render ys right) (f : String → String → String) :
    Render (xs ++ ys) fun reg => do return f (← left reg) (← right reg) := by
  obtain ⟨renderLeft, hl⟩ := hl
  obtain ⟨renderRight, hr⟩ := hr
  refine ⟨fun records => f (renderLeft (records.take xs.length))
    (renderRight (records.drop xs.length)), fun reg => ?_⟩
  simp only [hl reg, hr reg, List.mapM_append]
  cases hx : xs.mapM (fetch reg) with
  | error fault => rfl
  | ok records =>
    cases ys.mapM (fetch reg) with
    | error fault => rfl
    | ok more =>
      have hlength := Outcome.length_of_mapM hx
      simp [← hlength]

theorem render_accessName (a : Argument) (pass : Nat) :
    Render [⟨a, some pass⟩] (a.accessName · pass) := by
  refine render_single (f := fun r => (r.accessName? pass).getD "") fun reg => ?_
  simp only [fetch, Argument.accessName]
  cases a.info reg with
  | error fault => rfl
  | ok r =>
    simp only [Outcome.ok_bind, Record.accessName]
    cases hname : r.accessName? pass with
    | none => rfl
    | some text => simp [hname]

theorem render_info (a : Argument) (f : Record → String) :
    Render [⟨a, none⟩] fun reg => do return f (← a.info reg) := by
  refine render_single (f := f) fun reg => ?_
  simp only [fetch]
  cases a.info reg <;> rfl

end Reading

/-- The record of the argument, whatever the kernel. -/
def Argument.reading (a : Argument) : Reading :=
  ⟨a, none⟩

namespace Term

/-- The leaves that the short key shows. -/
def shortLeaves : Term → List Argument
  | leaf arg => [arg]
  | unary _ sub => sub.shortLeaves
  | binary op lhs rhs =>
    if op.isAssignment then lhs.shortLeaves ++ rhs.shortLeaves else lhs.leaves
  | matMat lhs rhs | matVec lhs rhs => lhs.shortLeaves ++ rhs.shortLeaves
  | inner lhs _ _ _ => lhs.leaves

/-- What the code of a kernel reads: names of leaves and temporaries, and the keys of matrix
products. -/
def codeReadings (pass : Nat) : Term → List Reading
  | leaf arg => [⟨arg, some pass⟩]
  | unary _ sub => sub.codeReadings pass
  | binary _ lhs rhs | inner lhs rhs none _ => lhs.codeReadings pass ++ rhs.codeReadings pass
  | matMat lhs rhs | matVec lhs rhs => (lhs.leaves ++ rhs.leaves).map Argument.reading
  | inner _ _ (some _) temporary => temporary.toList.map fun cell => ⟨cell, some pass⟩

open Reading

theorem render_key (t : Term) : Render (t.leaves.map Argument.reading) (t.key ·) := by
  induction t with
  | leaf arg => exact render_info arg _
  | unary op sub ih => exact ih.map _
  | binary op lhs rhs ihl ihr | matMat lhs rhs ihl ihr | matVec lhs rhs ihl ihr
  | inner lhs rhs computed temporary ihl ihr =>
    rw [leaves, List.map_append]
    exact ihl.join ihr _

theorem render_shortKey (t : Term) :
    Render (t.shortLeaves.map Argument.reading) (t.shortKey ·) := by
  induction t with
  | leaf arg => exact render_info arg _
  | unary op sub ih => exact ih.map _
  | binary op lhs rhs ihl ihr =>
    simp only [shortKey, shortLeaves]
    split
    · rw [List.map_append]
      exact ihl.join ihr _
    · exact lhs.render_key
  | matMat lhs rhs ihl ihr | matVec lhs rhs ihl ihr =>
    rw [shortLeaves, List.map_append]
    exact ihl.join ihr _
  | inner lhs rhs computed temporary ihl ihr => exact lhs.render_key

/-- The code of a term whose inner products have their temporaries. -/
theorem SettledIn.render_code {ctx : Context} {t : Term} (h : t.SettledIn ctx) (pass : Nat) :
    Render (t.codeReadings pass) (t.code · pass) := by
  induction t with
  | leaf arg => exact render_accessName arg pass
  | unary op sub ih => exact (ih h).map _
  | binary op lhs rhs ihl ihr => exact (ihl h.1).join (ihr h.2) _
  | matMat lhs rhs ihl ihr | matVec lhs rhs ihl ihr =>
    rw [codeReadings, List.map_append]
    exact lhs.render_key.join rhs.render_key fun l r => accumulator (joinKeys .prod l r) 0 0
  | inner lhs rhs computed temporary ihl ihr =>
    obtain ⟨⟨hl, hr⟩, ⟨cell, rfl, -⟩, -⟩ := h
    cases computed with
    | none => exact (ihl hl).join (ihr hr) _
    | some r => exact render_accessName cell pass

end Term

theorem Argument.render_declaration (a : Argument) :
    Reading.Render [a.reading] (a.declaration ·) :=
  Reading.render_info a _

/-! ### Numbers of another registry -/

namespace Registry

variable {home other : Registry} {a : Argument}

/-- The number that the argument has at home is not given out in the other registry. -/
def Lacks (home other : Registry) (a : Argument) : Prop :=
  ∃ i, home.lookup a.handle = some i ∧ other.size ≤ i

/-- The other registry has a record with the number that the argument has at home, and a name
for the kernel, where one is read. -/
def Offers (home other : Registry) (x : Reading) : Prop :=
  ∃ (i : Nat) (r : Record), home.lookup x.argument.handle = some i ∧ other.records[i]? = some r ∧
    ∀ pass, x.kernel = some pass → (r.accessName? pass).isSome = true

/-- The argument remembers the number that it has at home. -/
def Numbers (home : Registry) (a : Argument) : Prop :=
  ∃ i, a.record = some i ∧ home.lookup a.handle = some i ∧ i < home.size

theorem Sound.numbers (hs : home.Sound) (h : a.BoundIn home) : home.Numbers a := by
  obtain ⟨i, r, hi, hr, hagree⟩ := h
  exact ⟨i, hi, hs.lookup_eq_some_iff.mpr ⟨r, hr, hagree.1⟩, (List.getElem?_eq_some_iff.mp hr).1⟩

theorem Numbers.not_lacks_iff (h : home.Numbers a) :
    ¬ home.Lacks other a ↔ home.Offers other a.reading := by
  obtain ⟨i, -, hi, -⟩ := h
  constructor
  · intro hnot
    have hlt : i < other.size := Nat.lt_of_not_le fun hle => hnot ⟨i, hi, hle⟩
    exact ⟨i, _, hi, List.getElem?_eq_getElem hlt, fun pass hpass => by cases hpass⟩
  · rintro ⟨j, r, hj, hr, -⟩ ⟨k, hk, hle⟩
    obtain rfl := Option.some.inj (hj.symm.trans hk)
    exact absurd (List.getElem?_eq_some_iff.mp hr).1 (Nat.not_lt.mpr hle)

end Registry

namespace Reading

variable {home other : Registry} {x : Reading} {xs : List Reading} {args : List Argument}
  {text : Registry → Except Fault String}

theorem fetch_unbound_iff (h : home.Numbers x.argument) :
    x.fetch other = .error .unbound ↔ home.Lacks other x.argument := by
  obtain ⟨i, hrecord, hi, -⟩ := h
  simp only [fetch, Argument.info, Argument.id, hrecord, Outcome.ok_bind, Registry.get,
    Registry.Lacks, hi, Option.some.injEq, exists_eq_left', Registry.size]
  cases hr : other.records[i]? with
  | none => simpa using List.getElem?_eq_none_iff.mp hr
  | some r =>
    have hlt := (List.getElem?_eq_some_iff.mp hr).1
    simp only [Outcome.ok_bind]
    refine iff_of_false ?_ (Nat.not_le.mpr hlt)
    cases x.kernel with
    | none => simp
    | some pass =>
      simp only [Record.accessName]
      cases r.accessName? pass <;> simp

theorem exists_fetch_ok_iff (h : home.Numbers x.argument) :
    (∃ r, x.fetch other = .ok r) ↔ home.Offers other x := by
  obtain ⟨i, hrecord, hi, -⟩ := h
  simp only [fetch, Argument.info, Argument.id, hrecord, Outcome.ok_bind, Registry.get,
    Registry.Offers, hi, Option.some.injEq, exists_and_left, exists_eq_left']
  cases hr : other.records[i]? with
  | none => simp
  | some r =>
    simp only [Outcome.ok_bind]
    cases x.kernel with
    | none => simp
    | some pass =>
      simp only [Record.accessName]
      cases hname : r.accessName? pass <;> simp [hname]

theorem Render.error_iff (h : Render xs text) {fault : Fault} :
    text other = .error fault ↔ xs.mapM (fetch other) = .error fault := by
  obtain ⟨render, h⟩ := h
  rw [h other]
  cases xs.mapM (fetch other) <;> simp [Functor.map, Except.map]

theorem Render.unbound_iff (h : Render xs text) (hx : ∀ x ∈ xs, home.Numbers x.argument) :
    text other = .error .unbound ↔ ∃ before x after, xs = before ++ x :: after ∧
      (∀ y ∈ before, home.Offers other y) ∧ home.Lacks other x.argument := by
  rw [h.error_iff, Outcome.mapM_eq_error_iff]
  refine exists_congr fun before => exists_congr fun x => exists_congr fun after =>
    and_congr_right fun heq => ?_
  subst heq
  exact and_congr (forall₂_congr fun y hy => exists_fetch_ok_iff
    (hx y (List.mem_append_left _ hy)))
    (fetch_unbound_iff (hx x (List.mem_append_right _ List.mem_cons_self)))

theorem Render.ok_iff (h : Render xs text) (hx : ∀ x ∈ xs, home.Numbers x.argument) :
    (∃ s, text other = .ok s) ↔ ∀ x ∈ xs, home.Offers other x := by
  obtain ⟨render, h⟩ := h
  have hmap : (∃ s, text other = .ok s) ↔ ∃ records, xs.mapM (fetch other) = .ok records := by
    rw [h other]
    cases xs.mapM (fetch other) <;> simp [Functor.map, Except.map]
  rw [hmap, Outcome.exists_mapM_ok_iff]
  exact forall₂_congr fun x hmem => exists_fetch_ok_iff (hx x hmem)

/-- A text that reads no names is there exactly if no number is lacking. -/
theorem Render.plain_ok_iff (h : Render (args.map Argument.reading) text)
    (ha : ∀ a ∈ args, home.Numbers a) :
    (∃ s, text other = .ok s) ↔ ∀ a ∈ args, ¬ home.Lacks other a := by
  rw [h.ok_iff (List.forall_mem_map.mpr ha), List.forall_mem_map]
  exact forall₂_congr fun a hmem => (ha a hmem).not_lacks_iff.symm

theorem Render.plain_unbound_iff (h : Render (args.map Argument.reading) text)
    (ha : ∀ a ∈ args, home.Numbers a) :
    text other = .error .unbound ↔ ∃ a ∈ args, home.Lacks other a := by
  constructor
  · intro hunbound
    obtain ⟨before, x, after, heq, -, hlacks⟩ :=
      (h.unbound_iff (List.forall_mem_map.mpr ha)).mp hunbound
    have hx : x ∈ args.map Argument.reading := heq ▸ List.mem_append_right _ List.mem_cons_self
    obtain ⟨a, hmem, rfl⟩ := List.mem_map.mp hx
    exact ⟨a, hmem, hlacks⟩
  · rintro ⟨a, hmem, hlacks⟩
    cases htext : text other with
    | ok s => exact absurd hlacks ((h.plain_ok_iff ha).mp ⟨s, htext⟩ a hmem)
    | error fault =>
      -- Whichever record cannot be read, its number is lacking.
      obtain ⟨before, x, after, heq, -, hfetch⟩ :=
        Outcome.mapM_eq_error_iff.mp (h.error_iff.mp htext)
      have hx : x ∈ args.map Argument.reading := heq ▸ List.mem_append_right _ List.mem_cons_self
      obtain ⟨b, hb, rfl⟩ := List.mem_map.mp hx
      have hlacking : home.Lacks other b := by
        by_contra hnot
        obtain ⟨r, hr⟩ :=
          (exists_fetch_ok_iff (x := b.reading) (ha b hb)).mpr ((ha b hb).not_lacks_iff.mp hnot)
        rw [hr] at hfetch
        cases hfetch
      have hunbound := (fetch_unbound_iff (x := b.reading) (ha b hb)).mpr hlacking
      rw [Except.error.inj (hfetch.symm.trans hunbound)]

end Reading

/-! ### Texts of bound terms -/

namespace Term

variable {ctx : Context} {t : Term}

theorem shortLeaves_subset_leaves (t : Term) : t.shortLeaves ⊆ t.leaves := by
  induction t with
  | leaf arg => exact List.Subset.refl _
  | unary op sub ih => exact ih
  | binary op lhs rhs ihl ihr =>
    rw [shortLeaves]
    split
    · exact List.append_subset.mpr ⟨List.Subset.trans ihl (List.subset_append_left _ _),
        List.Subset.trans ihr (List.subset_append_right _ _)⟩
    · exact List.subset_append_left _ _
  | matMat lhs rhs ihl ihr | matVec lhs rhs ihl ihr =>
    exact List.append_subset.mpr ⟨List.Subset.trans ihl (List.subset_append_left _ _),
      List.Subset.trans ihr (List.subset_append_right _ _)⟩
  | inner lhs rhs computed temporary ihl ihr => exact List.subset_append_left _ _

theorem mem_references_of_codeReadings {pass : Nat} {x : Reading} (hx : x ∈ t.codeReadings pass) :
    x.argument ∈ t.references := by
  induction t with
  | leaf arg =>
    obtain rfl := List.mem_singleton.mp hx
    exact List.mem_singleton_self arg
  | unary op sub ih => exact ih hx
  | binary op lhs rhs ihl ihr => exact List.mem_append.mpr ((List.mem_append.mp hx).imp ihl ihr)
  | matMat lhs rhs ihl ihr | matVec lhs rhs ihl ihr =>
    obtain ⟨a, ha, rfl⟩ := List.mem_map.mp hx
    exact leaves_subset_references _ ha
  | inner lhs rhs computed temporary ihl ihr =>
    cases computed with
    | none =>
      exact List.mem_append_left _ (List.mem_append.mpr ((List.mem_append.mp hx).imp ihl ihr))
    | some r =>
      obtain ⟨cell, hcell, rfl⟩ := List.mem_map.mp hx
      exact List.mem_append_right _ hcell

/-- What becomes of the texts of a term that is bound at home when they are read in another
registry. A text that is there is made of the other records as it would be made of those at
home. -/
structure ReadAbroad (home other : Registry) (t : Term) : Prop where
  key_render : Reading.Render (t.leaves.map Argument.reading) (t.key ·)
  shortKey_render : Reading.Render (t.shortLeaves.map Argument.reading) (t.shortKey ·)
  declaration_render : ∀ a ∈ t.references, Reading.Render [a.reading] (a.declaration ·)
  code_render : ∀ pass, Reading.Render (t.codeReadings pass) (t.code · pass)
  key_unbound_iff : t.key other = .error .unbound ↔ ∃ a ∈ t.leaves, home.Lacks other a
  key_ok_iff : (∃ text, t.key other = .ok text) ↔ ∀ a ∈ t.leaves, ¬ home.Lacks other a
  shortKey_unbound_iff : t.shortKey other = .error .unbound ↔
    ∃ a ∈ t.shortLeaves, home.Lacks other a
  shortKey_ok_iff : (∃ text, t.shortKey other = .ok text) ↔
    ∀ a ∈ t.shortLeaves, ¬ home.Lacks other a
  declaration_unbound_iff : ∀ a ∈ t.references, a.declaration other = .error .unbound ↔
    home.Lacks other a
  declaration_ok_iff : ∀ a ∈ t.references, (∃ text, a.declaration other = .ok text) ↔
    ¬ home.Lacks other a
  code_unbound_iff : ∀ pass, t.code other pass = .error .unbound ↔
    ∃ before x after, t.codeReadings pass = before ++ x :: after ∧
      (∀ y ∈ before, home.Offers other y) ∧ home.Lacks other x.argument
  code_ok_iff : ∀ pass, (∃ text, t.code other pass = .ok text) ↔
    ∀ x ∈ t.codeReadings pass, home.Offers other x

theorem SettledIn.readAbroad (h : t.SettledIn ctx) (hs : ctx.registry.Sound) (other : Registry) :
    t.ReadAbroad ctx.registry other := by
  have hreferences : ∀ a ∈ t.references, ctx.registry.Numbers a :=
    fun a ha => hs.numbers (h.references a ha)
  have hleaves : ∀ a ∈ t.leaves, ctx.registry.Numbers a := fun a ha =>
    hreferences a (t.leaves_subset_references ha)
  have hshort : ∀ a ∈ t.shortLeaves, ctx.registry.Numbers a := fun a ha =>
    hleaves a (t.shortLeaves_subset_leaves ha)
  have hcode : ∀ pass, ∀ x ∈ t.codeReadings pass, ctx.registry.Numbers x.argument :=
    fun pass x hx => hreferences x.argument (mem_references_of_codeReadings hx)
  have hrender : ∀ a : Argument, Reading.Render ([a].map Argument.reading) (a.declaration ·) :=
    Argument.render_declaration
  have hdeclaration : ∀ a ∈ t.references, ∀ b ∈ [a], ctx.registry.Numbers b := fun a ha b hb =>
    List.mem_singleton.mp hb ▸ hreferences a ha
  exact {
    key_render := t.render_key
    shortKey_render := t.render_shortKey
    declaration_render := fun a _ => a.render_declaration
    code_render := h.render_code
    key_unbound_iff := t.render_key.plain_unbound_iff hleaves
    key_ok_iff := t.render_key.plain_ok_iff hleaves
    shortKey_unbound_iff := t.render_shortKey.plain_unbound_iff hshort
    shortKey_ok_iff := t.render_shortKey.plain_ok_iff hshort
    declaration_unbound_iff := fun a ha => by
      simpa using (hrender a).plain_unbound_iff (hdeclaration a ha)
    declaration_ok_iff := fun a ha => by
      simpa using (hrender a).plain_ok_iff (hdeclaration a ha)
    code_unbound_iff := fun pass => (h.render_code pass).unbound_iff (hcode pass)
    code_ok_iff := fun pass => (h.render_code pass).ok_iff (hcode pass) }

end Term

/-- Texts of a bound term against a registry in which it was not bound. They are rejected as
unbound exactly if the registry is too small for one of the numbers they read; a registry with as
many records as the one in which the term was bound rejects none of them, and an empty one rejects
them all. -/
theorem foreign_texts_unbound_iff {ctx ctx' : Context} {t t' : Term} (hreached : ctx.Reached)
    (hbind : t.bindAll ctx = .ok (t', ctx')) (other : Registry) :
    t'.ReadAbroad ctx'.registry other ∧ ∀ a ∈ t'.references,
      (ctx'.registry.size ≤ other.size → ¬ ctx'.registry.Lacks other a) ∧
      (other.size = 0 → ctx'.registry.Lacks other a) := by
  have hsettles := Term.settles_of_bind hreached.orderly (Workbench.bindAll_eq_ok hbind)
  have hsound := hsettles.orderly.sound
  refine ⟨hsettles.settled.readAbroad hsound other, fun a ha => ?_⟩
  obtain ⟨i, -, hlookup, hlt⟩ := hsound.numbers (hsettles.settled.references a ha)
  constructor
  · rintro hsize ⟨j, hj, hle⟩
    obtain rfl := Option.some.inj (hlookup.symm.trans hj)
    omega
  · intro hempty
    exact ⟨i, hlookup, by omega⟩

/-- `v = dot(x, y) * v` -/
def scaledByDot : Term :=
  let v : Term := .leaf (.ofHandle (.buffer 0) .float (.vector .whole))
  let x : Term := .leaf (.ofHandle (.buffer 1) .float (.vector .whole))
  let y : Term := .leaf (.ofHandle (.buffer 2) .float (.vector .whole))
  .binary .assign v (.binary .mul (.inner x y none none) v)

/-- The sum of two matrices, which have no buffer in common with `scaledByDot`. -/
def matrixSum : Term :=
  let a : Term := .leaf (.ofHandle (.buffer 7) .double (.matrix .standard))
  let b : Term := .leaf (.ofHandle (.buffer 8) .double (.matrix .standard))
  .binary .add a b

/-- The first two buffers of the term have numbers in the other registry, and the third one has
not. -/
theorem foreign_texts_unbound_iff_matrixSum :
    ∃ (t' s' : Term) (ctx' other : Context), Context.empty.Reached ∧
      scaledByDot.bindAll .empty = .ok (t', ctx') ∧ matrixSum.bindAll .empty = .ok (s', other) ∧
      (t'.ReadAbroad ctx'.registry other.registry ∧ ∀ a ∈ t'.references,
        (ctx'.registry.size ≤ other.registry.size → ¬ ctx'.registry.Lacks other.registry a) ∧
        (other.registry.size = 0 → ctx'.registry.Lacks other.registry a)) ∧
      t'.key other.registry = .error .unbound ∧ t'.code other.registry 0 = .error .unbound := by
  obtain ⟨⟨t', ctx'⟩, hbind, hvalues⟩ := Outcome.exists_ok_of_map
    (x := scaledByDot.bindAll .empty)
    (f := fun bound => (matrixSum.bindAll .empty).toOption.map fun other =>
      (bound.1.key other.2.registry, bound.1.code other.2.registry 0))
    (b := some (.error .unbound, .error .unbound)) (by decide +kernel)
  obtain ⟨⟨s', other⟩, hother, hvalues⟩ := Option.map_eq_some_iff.mp hvalues
  obtain ⟨hkey, hcode⟩ := Prod.mk.inj hvalues
  exact ⟨t', s', ctx', other, .empty, hbind, Outcome.toOption_eq_some_iff.mp hother,
    foreign_texts_unbound_iff .empty hbind other.registry, hkey, hcode⟩

/-- The vector 0, bound to the first record of a registry. -/
def firstVector : Argument :=
  ⟨.buffer 0, .float, .vector .whole, some 0⟩

/-- Bound in one registry, the vector is taken for the matrix that has its number in another. -/
theorem foreign_number_read :
    ∃ (s' : Term) (ctx' other : Context),
      (Term.leaf firstVector.erase).bindAll .empty = .ok (.leaf firstVector, ctx') ∧
      matrixSum.bindAll .empty = .ok (s', other) ∧
      (Term.leaf firstVector).key other.registry = .ok "vec_double_0" ∧
      (Term.leaf firstVector).shortKey other.registry = .ok "vec_double_0" ∧
      (Term.leaf firstVector).code other.registry 0 =
        .ok ("arg0[((i)*arg0_row_inc+arg0_row_start)*arg0_internal_size2" ++
          "+((j)*arg0_col_inc+arg0_col_start)]") ∧
      firstVector.declaration other.registry =
        .ok "__global double* arg0, unsigned int arg0_size" := by
  obtain ⟨⟨v', ctx'⟩, hbind, rfl⟩ := Outcome.exists_ok_of_map
    (x := (Term.leaf firstVector.erase).bindAll .empty)
    (f := fun bound => bound.1) (b := .leaf firstVector) (by decide +kernel)
  obtain ⟨⟨s', other⟩, hother, hvalues⟩ := Outcome.exists_ok_of_map
    (x := matrixSum.bindAll .empty)
    (f := fun other => ((Term.leaf firstVector).key other.2.registry,
      (Term.leaf firstVector).shortKey other.2.registry,
      (Term.leaf firstVector).code other.2.registry 0, firstVector.declaration other.2.registry))
    (b := (.ok "vec_double_0", .ok "vec_double_0",
      .ok ("arg0[((i)*arg0_row_inc+arg0_row_start)*arg0_internal_size2" ++
        "+((j)*arg0_col_inc+arg0_col_start)]"),
      .ok "__global double* arg0, unsigned int arg0_size")) (by decide +kernel)
  simp only [Prod.mk.injEq] at hvalues
  exact ⟨s', ctx', other, hbind, hother, hvalues⟩

end LinearKernels
