import LinearKernels.Proofs.Outcome
import LinearKernels.Proofs.TermShape

/-!
Registries under binding. A sound registry numbers its records in order and holds one record
for each handle; a record keeps its identity while names are added to it. An argument that
agrees with the record of its handle, if there is one, can be bound: it gets a record that
describes it and a name for the current kernel, and keeps its record if it had one.
-/

namespace LinearKernels

/-! ### Records -/

namespace Record

/-- The record describes the memory object of an argument. -/
def Agrees (r : Record) (a : Argument) : Prop :=
  r.handle = a.handle ∧ r.element = a.element ∧ r.signature = a.storage.signature

/-- The same record, perhaps with more names and another width. -/
structure Keeps (r r' : Record) : Prop where
  id : r'.id = r.id
  handle : r'.handle = r.handle
  element : r'.element = r.element
  signature : r'.signature = r.signature
  names : ∀ pass text, r.accessName? pass = some text → r'.accessName? pass = some text

/-- The same record, perhaps with more names. -/
structure Grows (r r' : Record) : Prop extends Keeps r r' where
  alignment : r'.alignment = r.alignment

theorem Keeps.refl (r : Record) : r.Keeps r :=
  ⟨rfl, rfl, rfl, rfl, fun _ _ h => h⟩

theorem Keeps.trans {r s t : Record} (h : r.Keeps s) (h' : s.Keeps t) : r.Keeps t where
  id := h'.id.trans h.id
  handle := h'.handle.trans h.handle
  element := h'.element.trans h.element
  signature := h'.signature.trans h.signature
  names pass text hn := h'.names pass text (h.names pass text hn)

theorem Grows.refl (r : Record) : r.Grows r :=
  ⟨Keeps.refl r, rfl⟩

theorem Grows.trans {r s t : Record} (h : r.Grows s) (h' : s.Grows t) : r.Grows t :=
  ⟨h.toKeeps.trans h'.toKeeps, h'.alignment.trans h.alignment⟩

theorem Grows.keyText {r r' : Record} (h : r.Grows r') (s : Storage) :
    s.keyText r' = s.keyText r := by
  simp only [Storage.keyText, elementText, h.id, h.element, h.alignment]

theorem Agrees.keeps {r r' : Record} {a : Argument} (h : r.Agrees a) (hk : r.Keeps r') :
    r'.Agrees a :=
  ⟨hk.handle.trans h.1, hk.element.trans h.2.1, hk.signature.trans h.2.2⟩

theorem lookup_filter_ne {pass other : Nat} (hne : other ≠ pass) (names : List (Nat × String)) :
    (names.filter (·.1 ≠ pass)).lookup other = names.lookup other := by
  induction names with
  | nil => rfl
  | cons entry rest ih =>
    obtain ⟨p, text⟩ := entry
    by_cases hp : p = pass
    · subst hp
      have hbeq : (other == p) = false := by simpa using hne
      simpa [List.lookup_cons, hbeq] using ih
    · by_cases ho : other = p
      · subst ho
        simp [hp]
      · have hbeq : (other == p) = false := by simpa using ho
        simpa [List.filter_cons, hp, List.lookup_cons, hbeq] using ih

theorem accessName?_ensure (r : Record) (pass : Nat) (text : String) :
    ∃ found, (r.ensureAccessName pass text).accessName? pass = some found := by
  unfold ensureAccessName
  cases h : r.accessName? pass with
  | some found => exact ⟨found, h⟩
  | none => exact ⟨text, by simp [setAccessName, accessName?]⟩

/-- Naming a kernel keeps all other names. -/
theorem grows_ensureAccessName (r : Record) (pass : Nat) (text : String) :
    r.Grows (r.ensureAccessName pass text) := by
  unfold ensureAccessName
  cases h : r.accessName? pass with
  | some found => exact Grows.refl r
  | none =>
    refine ⟨⟨rfl, rfl, rfl, rfl, ?_⟩, rfl⟩
    intro other found hfound
    have hne : other ≠ pass := by
      rintro rfl
      rw [h] at hfound
      cases hfound
    have hbeq : (other == pass) = false := by simpa using hne
    simp only [accessName?, setAccessName, List.lookup_cons, hbeq] at hfound ⊢
    rw [lookup_filter_ne hne]
    exact hfound

end Record

/-! ### Registries -/

namespace Registry

/-- Records are numbered in order, and no two have the same handle. -/
structure Sound (reg : Registry) : Prop where
  numbered : ∀ (i : Nat) (r : Record), reg.records[i]? = some r → r.id = i
  distinct : ∀ (i j : Nat) (r s : Record), reg.records[i]? = some r → reg.records[j]? = some s →
    r.handle = s.handle → i = j

/-- Every record is still there, perhaps with more names. -/
def Grows (reg reg' : Registry) : Prop :=
  ∀ (i : Nat) (r : Record), reg.records[i]? = some r →
    ∃ r', reg'.records[i]? = some r' ∧ r.Grows r'

/-- Every record is still there, perhaps with more names and another width. -/
def Keeps (reg reg' : Registry) : Prop :=
  ∀ (i : Nat) (r : Record), reg.records[i]? = some r →
    ∃ r', reg'.records[i]? = some r' ∧ r.Keeps r'

theorem Keeps.refl (reg : Registry) : reg.Keeps reg :=
  fun _ r h => ⟨r, h, Record.Keeps.refl r⟩

theorem Keeps.trans {a b c : Registry} (h : a.Keeps b) (h' : b.Keeps c) : a.Keeps c := by
  intro i r hr
  obtain ⟨s, hs, hrs⟩ := h i r hr
  obtain ⟨t, ht, hst⟩ := h' i s hs
  exact ⟨t, ht, hrs.trans hst⟩

theorem Grows.keeps {reg reg' : Registry} (h : reg.Grows reg') : reg.Keeps reg' := by
  intro i r hr
  obtain ⟨r', hr', hgrow⟩ := h i r hr
  exact ⟨r', hr', hgrow.toKeeps⟩

theorem Grows.refl (reg : Registry) : reg.Grows reg :=
  fun _ r h => ⟨r, h, Record.Grows.refl r⟩

theorem Grows.trans {a b c : Registry} (h : a.Grows b) (h' : b.Grows c) : a.Grows c := by
  intro i r hr
  obtain ⟨s, hs, hrs⟩ := h i r hr
  obtain ⟨t, ht, hst⟩ := h' i s hs
  exact ⟨t, ht, hrs.trans hst⟩

theorem get_eq_ok_iff {reg : Registry} {i : Nat} {r : Record} :
    reg.get i = .ok r ↔ reg.records[i]? = some r := by
  unfold get
  cases reg.records[i]? <;> simp

theorem exists_of_find? {reg : Registry} {h : Handle} {r : Record} (hr : reg.find? h = some r) :
    ∃ i : Nat, reg.records[i]? = some r ∧ r.handle = h := by
  have hmem := List.mem_of_find?_eq_some hr
  have hhandle := List.find?_some hr
  obtain ⟨i, hi⟩ := List.getElem?_of_mem hmem
  exact ⟨i, hi, by simpa using hhandle⟩

theorem handle_ne_of_find?_none {reg : Registry} {h : Handle} (hr : reg.find? h = none)
    {i : Nat} {r : Record} (hi : reg.records[i]? = some r) : r.handle ≠ h := by
  have := List.find?_eq_none.mp hr r (List.mem_of_getElem? hi)
  simpa using this

theorem sound_empty : Registry.empty.Sound :=
  ⟨fun i r h => by simp [empty] at h, fun i j r s h => by simp [empty] at h⟩

/-- Adding names to one record is growth. -/
theorem grows_modify (reg : Registry) (i : Nat) {f : Record → Record}
    (hf : ∀ r : Record, r.Grows (f r)) : reg.Grows (reg.modify i f) := by
  intro j r hr
  by_cases hij : i = j
  · subst hij
    exact ⟨f r, by simp [modify, hr], hf r⟩
  · exact ⟨r, by simp [modify, hij, hr], Record.Grows.refl r⟩

theorem getElem?_modify_grown (reg : Registry) (i : Nat) {f : Record → Record}
    (hf : ∀ r : Record, r.Grows (f r)) {j : Nat} {r' : Record}
    (h : (reg.modify i f).records[j]? = some r') :
    ∃ r, reg.records[j]? = some r ∧ r.Grows r' := by
  simp only [modify, List.getElem?_modify] at h
  obtain ⟨r, hr, heq⟩ := Option.map_eq_some_iff.mp h
  refine ⟨r, hr, ?_⟩
  split at heq
  · subst heq
    exact hf r
  · subst heq
    exact Record.Grows.refl r

/-- A registry is sound if its records have the numbers and handles of a sound one. -/
theorem Sound.of_origin {reg reg' : Registry} (hs : reg.Sound)
    (h : ∀ (i : Nat) (r' : Record), reg'.records[i]? = some r' →
      ∃ r, reg.records[i]? = some r ∧ r'.id = r.id ∧ r'.handle = r.handle) : reg'.Sound where
  numbered i r' hr' := by
    obtain ⟨r, hr, hid, -⟩ := h i r' hr'
    exact hid.trans (hs.numbered i r hr)
  distinct i j r' s' hr' hs' heq := by
    obtain ⟨r, hr, -, hrh⟩ := h i r' hr'
    obtain ⟨s, hs₁, -, hsh⟩ := h j s' hs'
    exact hs.distinct i j r s hr hs₁ (hrh.symm.trans (heq.trans hsh))

theorem Sound.modify {reg : Registry} (hs : reg.Sound) (i : Nat) {f : Record → Record}
    (hf : ∀ r : Record, r.Grows (f r)) : (reg.modify i f).Sound := by
  refine hs.of_origin fun j r' h => ?_
  obtain ⟨r, hr, hg⟩ := getElem?_modify_grown reg i hf h
  exact ⟨r, hr, hg.id, hg.handle⟩

/-- A registry with a record for `a`, at place `i`. Its other records are grown from those
of the registry before. -/
structure Registered (reg : Registry) (a : Argument) (i : Nat) (reg' : Registry) : Prop where
  sound : reg'.Sound
  grows : reg.Grows reg'
  found : ∃ r, reg'.records[i]? = some r ∧ r.Agrees a
  origin : ∀ (j : Nat) (r' : Record), reg'.records[j]? = some r' →
    r'.Agrees a ∨ ∃ r, reg.records[j]? = some r ∧ r.Grows r'

theorem getElem?_snoc {α : Type} {xs : List α} {x y : α} {i : Nat}
    (h : (xs ++ [x])[i]? = some y) : xs[i]? = some y ∨ i = xs.length ∧ x = y := by
  rw [List.getElem?_append] at h
  split at h
  · exact .inl h
  · next hi =>
    rw [List.getElem?_singleton] at h
    split at h
    · exact .inr ⟨by omega, by simpa using h⟩
    · cases h

/-- A record for a new handle goes to the end. -/
theorem Sound.snoc {reg : Registry} (hs : reg.Sound) {h : Handle} (hfresh : reg.find? h = none)
    (e : ElementType) (signature : String) :
    Sound ⟨reg.records ++ [⟨reg.size, h, e, signature, .one, []⟩]⟩ where
  numbered i r hi := by
    rcases getElem?_snoc hi with hi | ⟨rfl, rfl⟩
    · exact hs.numbered i r hi
    · rfl
  distinct i j r s hi hj heq := by
    rcases getElem?_snoc hi with hi | ⟨rfl, rfl⟩ <;> rcases getElem?_snoc hj with hj | ⟨rfl, rfl⟩
    · exact hs.distinct i j r s hi hj heq
    · exact absurd heq (handle_ne_of_find?_none hfresh hi)
    · exact absurd heq.symm (handle_ne_of_find?_none hfresh hj)
    · rfl

/-- Registering an argument that agrees with the record of its handle, if there is one. -/
theorem register_ok {reg : Registry} (hs : reg.Sound) (a : Argument)
    (hagree : ∀ (i : Nat) (r : Record), reg.records[i]? = some r →
      r.handle = a.handle → r.Agrees a) :
    ∃ i reg', reg.register a.handle a.element a.storage.signature = .ok (i, reg') ∧
      reg.Registered a i reg' := by
  unfold register
  cases h : reg.find? a.handle with
  | some r =>
    obtain ⟨i, hi, hhandle⟩ := exists_of_find? h
    have hr := hagree i r hi hhandle
    refine ⟨i, reg, ?_, hs, Grows.refl reg, ⟨r, hi, hr⟩, fun j r' hj => ?_⟩
    · simp only
      rw [if_pos ⟨hr.2.1, hr.2.2⟩, hs.numbered i r hi]
    · exact .inr ⟨r', hj, Record.Grows.refl r'⟩
  | none =>
    refine ⟨reg.size, ⟨reg.records ++ [⟨reg.size, a.handle, a.element, a.storage.signature, .one,
      []⟩]⟩, rfl, hs.snoc h _ _, ?_, ?_, ?_⟩
    · intro i r hi
      exact ⟨r, by rw [List.getElem?_append_left (List.getElem?_eq_some_iff.mp hi).1, hi],
        Record.Grows.refl r⟩
    · exact ⟨_, List.getElem?_concat_length, rfl, rfl, rfl⟩
    · intro j r' hj
      rcases getElem?_snoc hj with hj | ⟨rfl, rfl⟩
      · exact .inr ⟨r', hj, Record.Grows.refl r'⟩
      · exact .inl ⟨rfl, rfl, rfl⟩

end Registry

/-! ### Arguments -/

namespace Argument

theorem info_eq_ok_iff {a : Argument} {reg : Registry} {r : Record} :
    a.info reg = .ok r ↔ ∃ i, a.record = some i ∧ reg.records[i]? = some r := by
  unfold info id
  cases a.record with
  | none => simp
  | some i => simp [Registry.get_eq_ok_iff]

theorem name_of_info {a : Argument} {reg : Registry} {r : Record} (h : a.info reg = .ok r) :
    a.name reg = .ok r.name := by
  rw [name, h]
  rfl

/-- The argument has a record that describes it. -/
def BoundIn (reg : Registry) (a : Argument) : Prop :=
  ∃ (i : Nat) (r : Record), a.record = some i ∧ reg.records[i]? = some r ∧ r.Agrees a

/-- The argument's record has a name for the kernel. -/
def NamedIn (reg : Registry) (pass : Nat) (a : Argument) : Prop :=
  ∃ (i : Nat) (r : Record) (text : String),
    a.record = some i ∧ reg.records[i]? = some r ∧ r.accessName? pass = some text

theorem BoundIn.keeps {reg reg' : Registry} {a : Argument} (h : a.BoundIn reg)
    (hk : reg.Keeps reg') : a.BoundIn reg' := by
  obtain ⟨i, r, hi, hr, hagree⟩ := h
  obtain ⟨r', hr', hkeep⟩ := hk i r hr
  exact ⟨i, r', hi, hr', hagree.keeps hkeep⟩

theorem NamedIn.keeps {reg reg' : Registry} {pass : Nat} {a : Argument} (h : a.NamedIn reg pass)
    (hk : reg.Keeps reg') : a.NamedIn reg' pass := by
  obtain ⟨i, r, text, hi, hr, htext⟩ := h
  obtain ⟨r', hr', hkeep⟩ := hk i r hr
  exact ⟨i, r', text, hi, hr', hkeep.names pass text htext⟩

theorem NamedIn.accessName_ok {reg : Registry} {pass : Nat} {a : Argument}
    (h : a.NamedIn reg pass) : ∃ text, a.accessName reg pass = .ok text := by
  obtain ⟨i, r, text, hi, hr, htext⟩ := h
  refine ⟨text, ?_⟩
  rw [accessName, info_eq_ok_iff.mpr ⟨i, hi, hr⟩]
  simp [Record.accessName, htext]

/-- Two bound arguments with one handle have one record. -/
theorem BoundIn.record_eq {reg : Registry} (hs : reg.Sound) {a b : Argument} (ha : a.BoundIn reg)
    (hb : b.BoundIn reg) (h : a.handle = b.handle) : a.record = b.record := by
  obtain ⟨i, r, hi, hr, hra⟩ := ha
  obtain ⟨j, s, hj, hs', hsb⟩ := hb
  rw [hi, hj, hs.distinct i j r s hr hs' (hra.1.trans (h.trans hsb.1.symm))]

/-- What binding an argument leaves behind. -/
structure Binds (a : Argument) (ctx : Context) (a' : Argument) (reg' : Registry) : Prop where
  eq : a.bind ctx = .ok (a', { ctx with registry := reg' })
  erase : a'.erase = a.erase
  sound : reg'.Sound
  grows : ctx.registry.Grows reg'
  bound : a'.BoundIn reg'
  named : a'.NamedIn reg' ctx.pass
  origin : ∀ (j : Nat) (r' : Record), reg'.records[j]? = some r' →
    r'.Agrees a ∨ ∃ r, ctx.registry.records[j]? = some r ∧ r.Grows r'
  kept : a.BoundIn ctx.registry → a' = a

/-- An argument that agrees with the record of its handle can be bound. -/
theorem bind_ok {ctx : Context} (hs : ctx.registry.Sound) (a : Argument)
    (hagree : ∀ (i : Nat) (r : Record), ctx.registry.records[i]? = some r → r.handle = a.handle →
      r.Agrees a) :
    ∃ a' reg', a.Binds ctx a' reg' := by
  obtain ⟨i, reg, hreg, hr⟩ := Registry.register_ok hs a hagree
  obtain ⟨r, hri, hra⟩ := hr.found
  have hf : ∀ r : Record, r.Grows (r.ensureAccessName ctx.pass (a.storage.access r.name)) :=
    fun r => r.grows_ensureAccessName _ _
  let reg' := reg.modify i fun r => r.ensureAccessName ctx.pass (a.storage.access r.name)
  have hgrows : reg.Grows reg' := reg.grows_modify i hf
  have hfound :
      reg'.records[i]? = some (r.ensureAccessName ctx.pass (a.storage.access r.name)) := by
    simp [reg', Registry.modify, hri]
  have hbound : ({ a with record := some i } : Argument).BoundIn reg' :=
    ⟨i, _, rfl, hfound, hra.keeps (hf r).toKeeps⟩
  refine ⟨{ a with record := some i }, reg', ?_, rfl, hr.sound.modify i hf, hr.grows.trans hgrows,
    hbound, ?_, ?_, ?_⟩
  · rw [bind, hreg]
    rfl
  · obtain ⟨text, htext⟩ := r.accessName?_ensure ctx.pass (a.storage.access r.name)
    exact ⟨i, _, text, rfl, hfound, htext⟩
  · intro j r' hj
    obtain ⟨s, hs, hgs⟩ := reg.getElem?_modify_grown i hf hj
    rcases hr.origin j s hs with hsa | ⟨s', hs', hgs'⟩
    · exact .inl (hsa.keeps hgs.toKeeps)
    · exact .inr ⟨s', hs', hgs'.trans hgs⟩
  · intro ha
    have hrecord : a.record = some i :=
      (ha.keeps (hr.grows.trans hgrows).keeps).record_eq (hr.sound.modify i hf) hbound rfl
    rw [← hrecord]

end Argument

end LinearKernels
