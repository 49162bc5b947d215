import LinearKernels.Proofs.Binding
import Mathlib.Logic.Relation

/-!
Contexts in use. A context starts out empty and is then changed by calls in any order:
buffers are registered, terms are bound with or without success, temporaries are claimed,
widths and access texts are set. Whatever the calls, records are numbered in order, no handle
has two of them, and a record stays the record of its memory object. So a term that has been
bound stays bound.
-/

namespace LinearKernels

/-! ### Records of one object -/

/-- The two records are of one memory object. Widths and access texts may differ. -/
structure Record.SameObject (r r' : Record) : Prop where
  id : r'.id = r.id
  handle : r'.handle = r.handle
  element : r'.element = r.element
  signature : r'.signature = r.signature

namespace Record

theorem SameObject.refl (r : Record) : r.SameObject r :=
  ⟨rfl, rfl, rfl, rfl⟩

theorem SameObject.trans {r s t : Record} (h : r.SameObject s)
    (h' : s.SameObject t) : r.SameObject t :=
  ⟨h'.id.trans h.id, h'.handle.trans h.handle, h'.element.trans h.element,
    h'.signature.trans h.signature⟩

theorem Keeps.sameObject {r r' : Record} (h : r.Keeps r') : r.SameObject r' :=
  ⟨h.id, h.handle, h.element, h.signature⟩

theorem Agrees.sameObject {r r' : Record} {a : Argument} (h : r.Agrees a) (hr : r.SameObject r') :
    r'.Agrees a :=
  ⟨hr.handle.trans h.1, hr.element.trans h.2.1, hr.signature.trans h.2.2⟩

end Record

namespace Registry

/-- Every record is still there, as the record of its object. -/
def Retains (reg reg' : Registry) : Prop :=
  ∀ (i : Nat) (r : Record), reg.records[i]? = some r →
    ∃ r', reg'.records[i]? = some r' ∧ r.SameObject r'

theorem Retains.refl (reg : Registry) : reg.Retains reg :=
  fun _ r h => ⟨r, h, Record.SameObject.refl r⟩

theorem Retains.trans {a b c : Registry} (h : a.Retains b) (h' : b.Retains c) : a.Retains c := by
  intro i r hr
  obtain ⟨s, hs, hrs⟩ := h i r hr
  obtain ⟨t, ht, hst⟩ := h' i s hs
  exact ⟨t, ht, hrs.trans hst⟩

theorem Keeps.retains {reg reg' : Registry} (h : reg.Keeps reg') : reg.Retains reg' := by
  intro i r hr
  obtain ⟨r', hr', hkeep⟩ := h i r hr
  exact ⟨r', hr', hkeep.sameObject⟩

/-- A registry that is sound and has all records of the one before. -/
structure Extends (reg reg' : Registry) : Prop where
  sound : reg'.Sound
  retains : reg.Retains reg'

/-- Changing the width or the texts of a record. -/
theorem Sound.extends_modify {reg : Registry} (hs : reg.Sound) (i : Nat) {f : Record → Record}
    (hf : ∀ r : Record, r.SameObject (f r)) : reg.Extends (reg.modify i f) := by
  have hget : ∀ j : Nat, (reg.modify i f).records[j]? =
      reg.records[j]?.map fun r => if i = j then f r else r := by
    intro j
    rw [Registry.modify, List.getElem?_modify]
    cases reg.records[j]? <;> rfl
  have hsame : ∀ (j : Nat) (r : Record), r.SameObject (if i = j then f r else r) := by
    intro j r
    split
    · exact hf r
    · exact Record.SameObject.refl r
  constructor
  · refine hs.of_origin fun j r' hr' => ?_
    rw [hget] at hr'
    obtain ⟨r, hr, rfl⟩ := Option.map_eq_some_iff.mp hr'
    exact ⟨r, hr, (hsame j r).id, (hsame j r).handle⟩
  · intro j r hr
    exact ⟨_, by rw [hget, hr]; rfl, hsame j r⟩

/-- A handle is registered by finding its record, or by adding one at the end. -/
theorem register_cases {reg reg' : Registry} {h : Handle} {e : ElementType} {signature : String}
    {i : Nat} (heq : reg.register h e signature = .ok (i, reg')) :
    (∃ r, reg.find? h = some r ∧ r.element = e ∧ r.signature = signature ∧ i = r.id ∧
      reg' = reg) ∨ (reg.find? h = none ∧ i = reg.size ∧
        reg' = ⟨reg.records ++ [⟨reg.size, h, e, signature, .one, []⟩]⟩) := by
  unfold register at heq
  cases hfind : reg.find? h with
  | none =>
    rw [hfind] at heq
    obtain ⟨rfl, rfl⟩ := Prod.mk.inj (Except.ok.inj heq)
    exact .inr ⟨rfl, rfl, rfl⟩
  | some r =>
    rw [hfind] at heq
    by_cases hsame : r.element = e ∧ r.signature = signature
    · simp only [if_pos hsame] at heq
      obtain ⟨rfl, rfl⟩ := Prod.mk.inj (Except.ok.inj heq)
      exact .inl ⟨r, rfl, hsame.1, hsame.2, rfl, rfl⟩
    · simp only [if_neg hsame, reduceCtorEq] at heq

theorem Sound.extends_register {reg reg' : Registry} (hs : reg.Sound)
    {h : Handle} {e : ElementType} {signature : String} {i : Nat}
    (heq : reg.register h e signature = .ok (i, reg')) :
    reg.Extends reg' := by
  rcases register_cases heq with ⟨r, -, -, -, -, rfl⟩ | ⟨hnone, -, rfl⟩
  · exact ⟨hs, Retains.refl reg'⟩
  · refine ⟨hs.snoc hnone e signature, fun j r hr => ⟨r, ?_, Record.SameObject.refl r⟩⟩
    rw [List.getElem?_append_left (List.getElem?_eq_some_iff.mp hr).1, hr]

/-- An argument that could be registered agrees with the record of its handle. -/
theorem Sound.agrees_of_register {reg reg' : Registry} (hs : reg.Sound) {a : Argument} {i : Nat}
    (heq : reg.register a.handle a.element a.storage.signature = .ok (i, reg'))
    (j : Nat) (r : Record) (hr : reg.records[j]? = some r)
    (hhandle : r.handle = a.handle) : r.Agrees a := by
  rcases register_cases heq with ⟨s, hfind, helement, hsignature, -⟩ | ⟨hnone, -⟩
  · obtain ⟨k, hk, hs'⟩ := exists_of_find? hfind
    obtain rfl : j = k := hs.distinct j k r s hr hk (hhandle.trans hs'.symm)
    obtain rfl : r = s := Option.some.inj (hr.symm.trans hk)
    exact ⟨hhandle, helement, hsignature⟩
  · exact absurd hhandle (handle_ne_of_find?_none hnone hr)

end Registry

/-! ### Binding, whether it succeeds or not -/

namespace Argument

theorem BoundIn.retains {reg reg' : Registry} {a : Argument} (h : a.BoundIn reg)
    (hr : reg.Retains reg') :
    a.BoundIn reg' := by
  obtain ⟨i, r, hi, hget, hagrees⟩ := h
  obtain ⟨r', hget', hsame⟩ := hr i r hget
  exact ⟨i, r', hi, hget', hagrees.sameObject hsame⟩

theorem binds_of_bind {a a' : Argument} {ctx ctx' : Context} (hs : ctx.registry.Sound)
    (h : a.bind ctx = .ok (a', ctx')) :
    ∃ reg', ctx' = { ctx with registry := reg' } ∧ a.Binds ctx a' reg' := by
  obtain ⟨⟨i, reg⟩, hregister, -⟩ := Outcome.bind_eq_ok_iff.mp h
  obtain ⟨b, reg', hbinds⟩ := bind_ok hs a (hs.agrees_of_register hregister)
  obtain ⟨rfl, rfl⟩ := Prod.mk.inj (Except.ok.inj (hbinds.eq.symm.trans h))
  exact ⟨reg', rfl, hbinds⟩

end Argument

/-- What binding the term `t` leaves behind: the registry has grown, the term is written as it
was, and its leaves are bound unless there was a fault. -/
structure Bound.Grown (t : Term) (ctx : Context) (b : Bound) : Prop where
  sound : b.context.registry.Sound
  grows : ctx.registry.Grows b.context.registry
  erase : b.term.erase = t.erase
  leaves : b.fault = none → b.term.LeavesBound b.context.registry

namespace Bound.Grown

variable {ctx : Context} {b : Bound} {l r : Term}

theorem andThen {next : Context → Bound} {join : Term → Term → Term} (hl : Grown l ctx b)
    (hr : b.fault = none → Grown r b.context (next b.context))
    (herase : ∀ l r, (join l r).erase = join l.erase r.erase)
    (hleaves : ∀ l r, (join l r).leaves = l.leaves ++ r.leaves) :
    Grown (join l r) ctx (b.andThen next join r) := by
  unfold Bound.andThen
  cases hfault : b.fault with
  | some f => exact ⟨hl.sound, hl.grows, by rw [herase, herase, hl.erase], fun h => by cases h⟩
  | none =>
    have hr := hr hfault
    refine ⟨hr.sound, hl.grows.trans hr.grows, by rw [herase, herase, hl.erase, hr.erase], ?_⟩
    intro hnone a ha
    rw [hleaves] at ha
    rcases List.mem_append.mp ha with ha | ha
    · exact (hl.leaves hfault a ha).keeps hr.grows.keeps
    · exact hr.leaves hnone a ha

end Bound.Grown

namespace Term

theorem LeavesBound.retains {reg reg' : Registry} {t : Term} (h : t.LeavesBound reg)
    (hr : reg.Retains reg') : t.LeavesBound reg' :=
  fun a ha => (h a ha).retains hr

theorem bindTemporary_grown {l r : Term} {ctx : Context} (hs : ctx.registry.Sound)
    (hl : l.LeavesBound ctx.registry) (hr : r.LeavesBound ctx.registry) (computed : Option Nat)
    (temporary : Option Argument) :
    Bound.Grown (inner l r computed temporary) ctx
      (bindTemporary l r computed temporary ctx) := by
  have hleaves : ∀ {computed : Option Nat} {temporary : Option Argument},
      (inner l r computed temporary).LeavesBound ctx.registry := leavesBound_operands.mpr ⟨hl, hr⟩
  have hrefl := Registry.Grows.refl ctx.registry
  unfold bindTemporary
  cases (inner l r computed temporary).key ctx.registry with
  | error f => exact ⟨hs, hrefl, rfl, fun h => by cases h⟩
  | ok key =>
    let claimed : Context := { ctx with temporaries := (ctx.temporaries.claim key).2 }
    have hclaimed : claimed.registry.Sound := hs
    dsimp only
    split
    · exact ⟨hs, hrefl, rfl, fun h => by cases h⟩
    · next cell ctx' hbind =>
      obtain ⟨reg', rfl, hbinds⟩ := Argument.binds_of_bind hclaimed hbind
      exact ⟨hbinds.sound, hbinds.grows, rfl, fun _ => hleaves.keeps hbinds.grows.keeps⟩

/-- Binding any term in a sound registry. -/
theorem bind_grown (t : Term) {ctx : Context} (hs : ctx.registry.Sound) :
    (t.bind ctx).Grown t ctx := by
  induction t generalizing ctx with
  | leaf arg =>
    unfold bind
    split
    · exact ⟨hs, Registry.Grows.refl _, rfl, fun h => by cases h⟩
    · next arg' ctx' hbind =>
      obtain ⟨reg', rfl, hbinds⟩ := Argument.binds_of_bind hs hbind
      refine ⟨hbinds.sound, hbinds.grows, congrArg leaf hbinds.erase, fun _ a ha => ?_⟩
      obtain rfl := List.mem_singleton.mp ha
      exact hbinds.bound
  | unary op sub ih =>
    have hsub := ih hs
    exact ⟨hsub.sound, hsub.grows, congrArg (unary op) hsub.erase, hsub.leaves⟩
  | binary op l r ihl ihr =>
    exact (ihl hs).andThen (fun _ => ihr (ihl hs).sound) (fun _ _ => rfl) fun _ _ => rfl
  | matMat l r ihl ihr =>
    exact (ihl hs).andThen (fun _ => ihr (ihl hs).sound) (fun _ _ => rfl) fun _ _ => rfl
  | matVec l r ihl ihr =>
    exact (ihl hs).andThen (fun _ => ihr (ihl hs).sound) (fun _ _ => rfl) fun _ _ => rfl
  | inner l r computed temporary ihl ihr =>
    have hl := ihl hs
    have hr := ihr hl.sound
    have herase : ∀ {x y : Term} {computed : Option Nat} {temporary : Option Argument},
        x.erase = l.erase → y.erase = r.erase →
        (inner x y computed temporary).erase = inner l.erase r.erase none none := by
      intro x y computed temporary hx hy
      rw [erase, hx, hy]
    unfold bind
    dsimp only
    split
    · exact ⟨hl.sound, hl.grows, herase hl.erase rfl, fun h => by cases h⟩
    · next hlf =>
      split
      · exact ⟨hr.sound, hl.grows.trans hr.grows, herase hl.erase hr.erase, fun h => by cases h⟩
      · next hrf =>
        have hcell := bindTemporary_grown hr.sound ((hl.leaves hlf).keeps hr.grows.keeps)
          (hr.leaves hrf) computed temporary
        exact ⟨hcell.sound, (hl.grows.trans hr.grows).trans hcell.grows,
          hcell.erase.trans (herase hl.erase hr.erase), hcell.leaves⟩

/-- A term that could be bound has bound leaves. -/
theorem grown_of_bindAll {t t' : Term} {ctx ctx' : Context} (hs : ctx.registry.Sound)
    (h : t.bindAll ctx = .ok (t', ctx')) :
    t'.erase = t.erase ∧ ctx'.registry.Sound ∧ t'.LeavesBound ctx'.registry := by
  have hgrown := t.bind_grown hs
  unfold bindAll at h
  cases hfault : (t.bind ctx).fault with
  | some f => simp [hfault] at h
  | none =>
    simp only [hfault] at h
    obtain ⟨rfl, rfl⟩ := Prod.mk.inj (Except.ok.inj h)
    exact ⟨hgrown.erase, hgrown.sound, hgrown.leaves hfault⟩

end Term

/-! ### Calls -/

namespace Context

/-- One call that changes a context. -/
inductive Step (ctx : Context) : Context → Prop
  | register {h : Handle} {e : ElementType} {signature : String} {i : Nat} {reg : Registry}
      (eq : ctx.registry.register h e signature = .ok (i, reg)) :
      Step ctx { ctx with registry := reg }
  | bind (t : Term) : Step ctx (t.bind ctx).context
  | claim (key : String) : Step ctx { ctx with temporaries := (ctx.temporaries.claim key).2 }
  | setAlignment {a : Argument} {width : Nat} {reg : Registry}
      (eq : a.setAlignment ctx.registry width = .ok reg) : Step ctx { ctx with registry := reg }
  | setAccessName {a : Argument} {pass : Nat} {text : String} {reg : Registry}
      (eq : a.setAccessName ctx.registry pass text = .ok reg) :
      Step ctx { ctx with registry := reg }
  | withPass (pass : Nat) : Step ctx (ctx.withPass pass)

/-- The second context comes from the first by any number of calls. -/
abbrev Evolves : Context → Context → Prop :=
  Relation.ReflTransGen Step

theorem Step.extends {ctx ctx' : Context} (h : ctx.Step ctx') (hs : ctx.registry.Sound) :
    ctx.registry.Extends ctx'.registry := by
  cases h with
  | register eq => exact hs.extends_register eq
  | bind t =>
    have hgrown := t.bind_grown hs
    exact ⟨hgrown.sound, hgrown.grows.keeps.retains⟩
  | claim key => exact ⟨hs, Registry.Retains.refl _⟩
  | setAlignment eq =>
    obtain ⟨alignment, -, h⟩ := Outcome.bind_eq_ok_iff.mp eq
    obtain ⟨i, -, h⟩ := Outcome.bind_eq_ok_iff.mp h
    obtain ⟨r, -, h⟩ := Outcome.bind_eq_ok_iff.mp h
    obtain rfl := Except.ok.inj h
    exact hs.extends_modify i fun r => ⟨rfl, rfl, rfl, rfl⟩
  | setAccessName eq =>
    obtain ⟨i, -, h⟩ := Outcome.bind_eq_ok_iff.mp eq
    obtain ⟨r, -, h⟩ := Outcome.bind_eq_ok_iff.mp h
    obtain rfl := Except.ok.inj h
    exact hs.extends_modify i fun r => ⟨rfl, rfl, rfl, rfl⟩
  | withPass pass => exact ⟨hs, Registry.Retains.refl _⟩

theorem Evolves.extends {ctx ctx' : Context} (h : ctx.Evolves ctx') (hs : ctx.registry.Sound) :
    ctx.registry.Extends ctx'.registry := by
  induction h with
  | refl => exact ⟨hs, Registry.Retains.refl _⟩
  | tail _ hstep ih =>
    have hlast := hstep.extends ih.sound
    exact ⟨hlast.sound, ih.retains.trans hlast.retains⟩

/-- Records are in order in every context that has been in use. -/
theorem Evolves.sound {ctx : Context} (h : Context.empty.Evolves ctx) : ctx.registry.Sound :=
  (h.extends Registry.sound_empty).sound

end Context

end LinearKernels
