import LinearKernels.Proofs.SharedTemporaries

/-!
Runs of calls on one context. Objects are registered one by one or as the leaves of terms that
are bound, where binding may stop halfway; temporaries are claimed, and widths and access texts
are set. Each object is asked for with a handle, an element type and a signature. After any run
the registry is a table of the handles asked for, numbered without gaps, where each handle has
the type and signature of the first request for it.
-/

namespace LinearKernels

/-- A memory object as it is asked for. -/
structure Request where
  handle : Handle
  element : ElementType
  signature : String
deriving DecidableEq

def Record.request (r : Record) : Request :=
  ⟨r.handle, r.element, r.signature⟩

def Argument.request (a : Argument) : Request :=
  ⟨a.handle, a.element, a.storage.signature⟩

/-! ### Serving requests -/

namespace Registry

/-- What the registry says about the object with a handle. -/
def known (reg : Registry) (h : Handle) : Option Request :=
  (reg.find? h).map (·.request)

/-- The second registry says about an object what the first one says, or else what the first of
the requests for it says. -/
def Serves (reg : Registry) (log : List Request) (reg' : Registry) : Prop :=
  ∀ h, reg'.known h = (reg.known h).or (log.find? (·.handle = h))

variable {reg reg' reg'' : Registry} {log log' : List Request}

theorem Serves.refl (reg : Registry) : reg.Serves [] reg :=
  fun h => by simp

theorem Serves.trans (h : reg.Serves log reg') (h' : reg'.Serves log' reg'') :
    reg.Serves (log ++ log') reg'' := by
  intro handle
  rw [h' handle, h handle, List.find?_append, Option.or_assoc]

/-- Objects stay as they are when widths or texts change. -/
theorem known_modify (reg : Registry) (i : Nat) {f : Record → Record}
    (hf : ∀ r, (f r).request = r.request) (h : Handle) :
    (reg.modify i f).known h = reg.known h := by
  have hhandle : ∀ r : Record, (f r).handle = r.handle := fun r => congrArg Request.handle (hf r)
  obtain ⟨records⟩ := reg
  simp only [known, find?, modify]
  induction records generalizing i with
  | nil => simp
  | cons r rest ih =>
    cases i with
    | zero =>
      by_cases hr : r.handle = h
      · simp [hhandle, hr, hf]
      · simp [hhandle, hr]
    | succ i =>
      by_cases hr : r.handle = h
      · simp [hr]
      · simpa [hr] using ih i

theorem serves_modify (reg : Registry) (i : Nat) {f : Record → Record}
    (hf : ∀ r, (f r).request = r.request) :
    reg.Serves [] (reg.modify i f) := by
  intro h
  simp [reg.known_modify i hf]

/-- An object that is known already is not asked for anew. -/
theorem serves_of_find? {q : Request} {r : Record} (h : reg.find? q.handle = some r) :
    reg.Serves [q] reg := by
  intro handle
  by_cases heq : q.handle = handle
  · rw [← heq, known, h, Option.map_some, Option.some_or]
  · simp [heq]

theorem serves_register {h : Handle} {e : ElementType} {signature : String} {i : Nat}
    (heq : reg.register h e signature = .ok (i, reg')) : reg.Serves [⟨h, e, signature⟩] reg' := by
  rcases register_cases heq with ⟨r, hfind, -, -, -, rfl⟩ | ⟨hnone, -, rfl⟩
  · exact serves_of_find? hfind
  · intro handle
    simp only [known, find?, List.find?_append, Option.map_or]
    by_cases hh : h = handle
    · simp [hh, Record.request]
    · simp [hh]

/-- A request is refused exactly if another one for the handle came before. -/
theorem register_error_iff {h : Handle} {e : ElementType} {signature : String} :
    (∃ f, reg.register h e signature = .error f) ↔
      ∃ r, reg.find? h = some r ∧ (r.element ≠ e ∨ r.signature ≠ signature) := by
  unfold register
  cases reg.find? h with
  | none => simp
  | some r =>
    by_cases hsame : r.element = e ∧ r.signature = signature
    · simp [hsame]
    · simpa [hsame] using not_and_or.mp hsame

theorem serves_of_register_error {h : Handle} {e : ElementType} {signature : String} {f : Fault}
    (heq : reg.register h e signature = .error f) : reg.Serves [⟨h, e, signature⟩] reg := by
  obtain ⟨r, hfind, -⟩ := register_error_iff.mp ⟨f, heq⟩
  exact serves_of_find? hfind

end Registry

/-- The temporaries of the first are those of the second, which may have more. -/
structure Temporaries.Extends (t t' : Temporaries) : Prop where
  distinct : t.Distinct → t'.Distinct
  keys : ∃ more, t'.keys = t.keys ++ more

namespace Temporaries

theorem Extends.refl (t : Temporaries) : t.Extends t :=
  ⟨fun h => h, [], (List.append_nil _).symm⟩

theorem Extends.trans {t t' t'' : Temporaries} (h : t.Extends t') (h' : t'.Extends t'') :
    t.Extends t'' := by
  obtain ⟨more, hmore⟩ := h.keys
  obtain ⟨more', hmore'⟩ := h'.keys
  exact ⟨fun hd => h'.distinct (h.distinct hd), more ++ more',
    by rw [hmore', hmore, List.append_assoc]⟩

theorem extends_claim (t : Temporaries) (key : String) : t.Extends (t.claim key).2 := by
  refine ⟨fun hd => (handle?_claim hd key).1, ?_⟩
  unfold claim
  cases t.keys.idxOf? key with
  | none => exact ⟨[key], rfl⟩
  | some i => exact ⟨[], (List.append_nil _).symm⟩

end Temporaries

/-- The second context comes from the first by serving the requests. -/
structure Context.Serves (ctx : Context) (log : List Request) (ctx' : Context) : Prop where
  registry : ctx.registry.Serves log ctx'.registry
  temporaries : ctx.temporaries.Extends ctx'.temporaries

theorem Context.Serves.refl (ctx : Context) : ctx.Serves [] ctx :=
  ⟨Registry.Serves.refl _, Temporaries.Extends.refl _⟩

theorem Context.Serves.trans {ctx ctx' ctx'' : Context} {log log' : List Request}
    (h : ctx.Serves log ctx') (h' : ctx'.Serves log' ctx'') : ctx.Serves (log ++ log') ctx'' :=
  ⟨h.registry.trans h'.registry, h.temporaries.trans h'.temporaries⟩

/-! ### The requests of a term -/

namespace Argument

theorem serves_bind {a a' : Argument} {ctx ctx' : Context} (h : a.bind ctx = .ok (a', ctx')) :
    ctx.Serves [a.request] ctx' := by
  obtain ⟨⟨i, reg⟩, hregister, h⟩ := Outcome.bind_eq_ok_iff.mp h
  obtain ⟨-, rfl⟩ := Prod.mk.inj (Except.ok.inj h)
  have hnamed := reg.serves_modify i (f := fun r => r.ensureAccessName ctx.pass
    (a.storage.access r.name)) fun r => by
    have hgrows := r.grows_ensureAccessName ctx.pass (a.storage.access r.name)
    simp only [Record.request, hgrows.handle, hgrows.element, hgrows.signature]
  exact ⟨(Registry.serves_register hregister).trans hnamed, Temporaries.Extends.refl _⟩

theorem serves_of_bind_error {a : Argument} {ctx : Context} {f : Fault}
    (h : a.bind ctx = .error f) :
    ctx.Serves [a.request] ctx := by
  refine ⟨?_, Temporaries.Extends.refl _⟩
  cases hregister : ctx.registry.register a.handle a.element a.storage.signature with
  | error f' => exact Registry.serves_of_register_error hregister
  | ok x =>
    rw [bind, hregister] at h
    cases h

end Argument

namespace Term

/-- The object of the temporary that is bound for an inner product. -/
def temporaryRequest (lhs rhs : Term) (computed : Option Nat)
    (temporary : Option Argument) (ctx : Context) :
    List Request :=
  match (inner lhs rhs computed temporary).key ctx.registry with
  | .error _ => []
  | .ok key =>
    [(temporary.getD (.ofHandle (ctx.temporaries.claim key).1 lhs.element .deviceScalar)).request]

/-- The objects that binding a term asks for, up to and including the one that is refused. -/
def requests : Term → Context → List Request
  | leaf arg, _ => [arg.request]
  | unary _ sub, ctx => sub.requests ctx
  | binary _ lhs rhs, ctx | matMat lhs rhs, ctx | matVec lhs rhs, ctx =>
    lhs.requests ctx ++ if (lhs.bind ctx).fault.isSome then []
      else rhs.requests (lhs.bind ctx).context
  | inner lhs rhs computed temporary, ctx =>
    let l := lhs.bind ctx
    let r := rhs.bind l.context
    lhs.requests ctx ++ if l.fault.isSome then [] else
      rhs.requests l.context ++ if r.fault.isSome then [] else
        temporaryRequest l.term r.term computed temporary r.context

theorem serves_andThen {b : Bound} {ctx : Context} {next : Context → Bound}
    {join : Term → Term → Term} {rhs : Term} {log log' : List Request}
    (hl : ctx.Serves log b.context) (hr : b.context.Serves log' (next b.context).context) :
    ctx.Serves (log ++ if b.fault.isSome then [] else log')
      (b.andThen next join rhs).context := by
  unfold Bound.andThen
  cases b.fault with
  | some f => simpa using hl
  | none => exact hl.trans hr

theorem serves_bindTemporary (l r : Term) (computed : Option Nat)
    (temporary : Option Argument) (ctx : Context) :
    ctx.Serves (temporaryRequest l r computed temporary ctx)
      (bindTemporary l r computed temporary ctx).context := by
  unfold bindTemporary temporaryRequest
  cases (inner l r computed temporary).key ctx.registry with
  | error f => exact Context.Serves.refl ctx
  | ok key =>
    have hclaim : ctx.Serves [] { ctx with temporaries := (ctx.temporaries.claim key).2 } :=
      ⟨Registry.Serves.refl _, ctx.temporaries.extends_claim key⟩
    dsimp only
    split
    · next hbind => exact hclaim.trans (Argument.serves_of_bind_error hbind)
    · next hbind => exact hclaim.trans (Argument.serves_bind hbind)

/-- Binding a term serves its requests, whether it succeeds or not. -/
theorem serves_bind (t : Term) (ctx : Context) :
    ctx.Serves (t.requests ctx) (t.bind ctx).context := by
  induction t generalizing ctx with
  | leaf arg =>
    rw [bind, requests]
    split
    · next hbind => exact Argument.serves_of_bind_error hbind
    · next hbind => exact Argument.serves_bind hbind
  | unary op sub ih => exact ih ctx
  | binary op l r ihl ihr => exact serves_andThen (ihl ctx) (ihr _)
  | matMat l r ihl ihr => exact serves_andThen (ihl ctx) (ihr _)
  | matVec l r ihl ihr => exact serves_andThen (ihl ctx) (ihr _)
  | inner l r computed temporary ihl ihr =>
    rw [bind, requests]
    dsimp only
    cases (l.bind ctx).fault with
    | some f => simpa using ihl ctx
    | none =>
      cases (r.bind (l.bind ctx).context).fault with
      | some f => simpa using (ihl ctx).trans (ihr _)
      | none => exact (ihl ctx).trans ((ihr _).trans (serves_bindTemporary _ _ _ _ _))

end Term

/-! ### Calls -/

/-- The same object, not narrower than before. -/
structure Record.Widens (r r' : Record) : Prop extends Record.SameObject r r' where
  width : r.alignment.width ≤ r'.alignment.width

theorem Record.Widens.refl (r : Record) : r.Widens r :=
  ⟨SameObject.refl r, Nat.le_refl _⟩

/-- Every record is still there, and none is narrower. -/
def Registry.Widens (reg reg' : Registry) : Prop :=
  ∀ (i : Nat) (r : Record), reg.records[i]? = some r →
    ∃ r', reg'.records[i]? = some r' ∧ r.Widens r'

namespace Registry

theorem Widens.refl (reg : Registry) : reg.Widens reg :=
  fun _ r h => ⟨r, h, Record.Widens.refl r⟩

theorem Widens.trans {a b c : Registry} (h : a.Widens b) (h' : b.Widens c) : a.Widens c := by
  intro i r hr
  obtain ⟨s, hs, hrs⟩ := h i r hr
  obtain ⟨t, ht, hst⟩ := h' i s hs
  exact ⟨t, ht, hrs.toSameObject.trans hst.toSameObject, Nat.le_trans hrs.width hst.width⟩

theorem Grows.widens {reg reg' : Registry} (h : reg.Grows reg') : reg.Widens reg' := by
  intro i r hr
  obtain ⟨r', hr', hgrows⟩ := h i r hr
  exact ⟨r', hr', hgrows.toKeeps.sameObject, Nat.le_of_eq (by rw [hgrows.alignment])⟩

theorem widens_modify (reg : Registry) (i : Nat) {f : Record → Record}
    (hf : ∀ r : Record, r.Widens (f r)) :
    reg.Widens (reg.modify i f) := by
  intro j r hr
  by_cases hij : i = j
  · subst hij
    exact ⟨f r, by simp [modify, hr], hf r⟩
  · exact ⟨r, by simp [modify, hij, hr], Record.Widens.refl r⟩

theorem widens_register {reg reg' : Registry} {h : Handle} {e : ElementType} {signature : String}
    {i : Nat} (heq : reg.register h e signature = .ok (i, reg')) : reg.Widens reg' := by
  rcases register_cases heq with ⟨r, -, -, -, -, rfl⟩ | ⟨-, -, rfl⟩
  · exact Widens.refl _
  · intro j r hr
    refine ⟨r, ?_, Record.Widens.refl r⟩
    rw [List.getElem?_append_left (List.getElem?_eq_some_iff.mp hr).1, hr]

end Registry

theorem Alignment.width_le_raise (a b : Alignment) : a.width ≤ (a.raise b).width := by
  unfold raise
  split
  · omega
  · exact Nat.le_refl _

namespace Context

/-- A call on a context. Arguments and terms may come from other contexts. -/
inductive Call where
  | register (handle : Handle) (element : ElementType) (signature : String)
  | bind (t : Term)
  | setPass (pass : Nat)
  | claim (key : String)
  | setAccessName (a : Argument) (pass : Nat) (text : String)
  | setAlignment (a : Argument) (width : Nat)

/-- A call that fails changes nothing. -/
def replace (ctx : Context) : Except Fault Registry → Context
  | .ok reg => { ctx with registry := reg }
  | .error _ => ctx

/-- The context after a call. What was bound before binding failed stays bound. -/
def call (ctx : Context) : Call → Context
  | .register handle element signature =>
    ctx.replace ((ctx.registry.register handle element signature).map (·.2))
  | .bind t => (t.bind ctx).context
  | .setPass pass => ctx.withPass pass
  | .claim key => { ctx with temporaries := (ctx.temporaries.claim key).2 }
  | .setAccessName a pass text => ctx.replace (a.setAccessName ctx.registry pass text)
  | .setAlignment a width => ctx.replace (a.setAlignment ctx.registry width)

def requests (ctx : Context) : Call → List Request
  | .register handle element signature => [⟨handle, element, signature⟩]
  | .bind t => t.requests ctx
  | _ => []

def run (ctx : Context) (calls : List Call) : Context :=
  calls.foldl call ctx

/-- All requests of the calls, in order. -/
def log (ctx : Context) : List Call → List Request
  | [] => []
  | c :: calls => ctx.requests c ++ (ctx.call c).log calls

/-- What calls make of a context. -/
structure Advances (ctx : Context) (log : List Request) (ctx' : Context) : Prop where
  sound : ctx'.registry.Sound
  widens : ctx.registry.Widens ctx'.registry
  serves : ctx.Serves log ctx'

variable {ctx ctx' ctx'' : Context}

theorem Advances.trans {log log' : List Request} (h : ctx.Advances log ctx')
    (h' : ctx'.Advances log' ctx'') :
    ctx.Advances (log ++ log') ctx'' :=
  ⟨h'.sound, h.widens.trans h'.widens, h.serves.trans h'.serves⟩

theorem advances_refl (hs : ctx.registry.Sound) : ctx.Advances [] ctx :=
  ⟨hs, Registry.Widens.refl _, Serves.refl ctx⟩

theorem advances_modify (hs : ctx.registry.Sound) (i : Nat) {f : Record → Record}
    (hf : ∀ r : Record, r.Widens (f r)) :
    ctx.Advances [] { ctx with registry := ctx.registry.modify i f } where
  sound := (hs.extends_modify i fun r => (hf r).toSameObject).sound
  widens := ctx.registry.widens_modify i hf
  serves := ⟨ctx.registry.serves_modify i fun r => by
    simp only [Record.request, (hf r).handle, (hf r).element,
      (hf r).signature], Temporaries.Extends.refl _⟩

/-- One call. -/
theorem advances_call (hs : ctx.registry.Sound) (c : Call) :
    ctx.Advances (ctx.requests c) (ctx.call c) := by
  cases c with
  | register handle element signature =>
    cases heq : ctx.registry.register handle element signature with
    | error f =>
      simp only [call, heq, requests]
      exact ⟨hs, Registry.Widens.refl _, Registry.serves_of_register_error heq,
        Temporaries.Extends.refl _⟩
    | ok x =>
      simp only [call, heq, requests]
      exact ⟨(hs.extends_register heq).sound, Registry.widens_register heq,
        Registry.serves_register heq, Temporaries.Extends.refl _⟩
  | bind t =>
    have hgrown := t.bind_grown hs
    exact ⟨hgrown.sound, hgrown.grows.widens, t.serves_bind ctx⟩
  | setPass pass =>
    exact ⟨hs, Registry.Widens.refl _, Registry.Serves.refl _, Temporaries.Extends.refl _⟩
  | claim key =>
    exact ⟨hs, Registry.Widens.refl _, Registry.Serves.refl _, ctx.temporaries.extends_claim key⟩
  | setAccessName a pass text =>
    cases heq : a.setAccessName ctx.registry pass text with
    | error f =>
      simp only [call, heq]
      exact advances_refl hs
    | ok reg =>
      simp only [call, heq]
      obtain ⟨i, -, h⟩ := Outcome.bind_eq_ok_iff.mp heq
      obtain ⟨r, -, h⟩ := Outcome.bind_eq_ok_iff.mp h
      obtain rfl := Except.ok.inj h
      exact advances_modify hs i fun r => ⟨⟨rfl, rfl, rfl, rfl⟩, Nat.le_refl _⟩
  | setAlignment a width =>
    cases heq : a.setAlignment ctx.registry width with
    | error f =>
      simp only [call, heq]
      exact advances_refl hs
    | ok reg =>
      simp only [call, heq]
      obtain ⟨alignment, -, h⟩ := Outcome.bind_eq_ok_iff.mp heq
      obtain ⟨i, -, h⟩ := Outcome.bind_eq_ok_iff.mp h
      obtain ⟨r, -, h⟩ := Outcome.bind_eq_ok_iff.mp h
      obtain rfl := Except.ok.inj h
      exact advances_modify hs i fun r => ⟨⟨rfl, rfl, rfl, rfl⟩, Alignment.width_le_raise _ _⟩

/-- Any number of calls. -/
theorem advances_run (hs : ctx.registry.Sound) (calls : List Call) :
    ctx.Advances (ctx.log calls) (ctx.run calls) := by
  induction calls generalizing ctx with
  | nil => exact advances_refl hs
  | cons c calls ih =>
    have hfirst := advances_call hs c
    exact hfirst.trans (ih hfirst.sound)

/-- The calls of two runs, one after the other. -/
theorem run_append (ctx : Context) (calls more : List Call) :
    ctx.run (calls ++ more) = (ctx.run calls).run more :=
  List.foldl_append

end Context

/-! ### Tables -/

namespace Registry.Sound

variable {reg : Registry} {h : Handle} {i : Nat} {r : Record}

/-- A record is found by its handle. -/
theorem find?_eq (hs : reg.Sound) (hr : reg.records[i]? = some r) :
    reg.find? r.handle = some r := by
  cases hfind : reg.find? r.handle with
  | none => exact absurd rfl (handle_ne_of_find?_none hfind hr)
  | some s =>
    obtain ⟨j, hj, hhandle⟩ := exists_of_find? hfind
    obtain rfl : j = i := hs.distinct j i s r hj hr hhandle
    exact hj.symm.trans hr

theorem lookup_eq_some_iff (hs : reg.Sound) :
    reg.lookup h = some i ↔ ∃ r, reg.records[i]? = some r ∧ r.handle = h := by
  constructor
  · intro hlookup
    obtain ⟨r, hfind, rfl⟩ := Option.map_eq_some_iff.mp hlookup
    obtain ⟨j, hj, hhandle⟩ := exists_of_find? hfind
    exact ⟨r, by rw [hs.numbered j r hj, hj], hhandle⟩
  · rintro ⟨r, hr, rfl⟩
    rw [lookup, hs.find?_eq hr, Option.map_some, hs.numbered i r hr]

end Registry.Sound

theorem Alignment.width_mem (a : Alignment) : a.width ∈ [1, 2, 4, 8, 16] := by
  cases a <;> decide

/-- The context is a table of the requests: handles and numbers, keys and temporaries are each
one to one, and every record is that of the first request for its handle. -/
structure Context.Tabulates (ctx : Context) (log : List Request) : Prop where
  registered_iff : ∀ h, (∃ i, ctx.registry.lookup h = some i) ↔ ∃ q ∈ log, q.handle = h
  number_lt : ∀ h i, ctx.registry.lookup h = some i → i < ctx.registry.size
  handle_unique : ∀ i < ctx.registry.size, ∃! h, ctx.registry.lookup h = some i
  record : ∀ i < ctx.registry.size, ∃ r, ctx.registry.get i = .ok r ∧ r.id = i ∧
    r.name = "arg" ++ decimal i ∧ ctx.registry.lookup r.handle = some i ∧
    log.find? (·.handle = r.handle) = some ⟨r.handle, r.element, r.signature⟩ ∧
    r.alignment.width ∈ [1, 2, 4, 8, 16]
  temporary : ∀ key h, ctx.temporaries.handle? key = some h →
    ∃ i < ctx.temporaries.count, h = .temporary i
  key_unique : ∀ i < ctx.temporaries.count, ∃! key, ctx.temporaries.handle? key =
    some (.temporary i)
  claimed : ∀ key, (ctx.temporaries.claim key).2.handle? key = some (ctx.temporaries.claim key).1

/-- What the first context has given out is the same in the second, and no record is narrower. -/
structure Context.Persists (ctx ctx' : Context) : Prop where
  lookup : ∀ h i, ctx.registry.lookup h = some i → ctx'.registry.lookup h = some i
  record : ∀ i r, ctx.registry.get i = .ok r →
    ∃ r', ctx'.registry.get i = .ok r' ∧ r'.handle = r.handle ∧
    r'.element = r.element ∧ r'.signature = r.signature ∧ r.alignment.width ≤ r'.alignment.width
  temporary : ∀ key h, ctx.temporaries.handle? key = some h →
    ctx'.temporaries.handle? key = some h

namespace Context

variable {ctx ctx' : Context} {log : List Request}

theorem empty_orderly : Context.empty.Orderly :=
  ⟨Registry.sound_empty, fun i j key h => by simp [empty, Temporaries.empty] at h⟩

/-- A context that comes from the empty one. -/
theorem Advances.tabulates (h : Context.empty.Advances log ctx) : ctx.Tabulates log := by
  have hs := h.sound
  have hd := h.serves.temporaries.distinct empty_orderly.distinct
  have hknown : ∀ handle, ctx.registry.known handle = log.find? (·.handle = handle) :=
    fun handle => by
      rw [h.serves.registry handle]
      rfl
  refine ⟨fun handle => ?_, ?_, ?_, ?_, ?_, ?_, fun key => (Temporaries.handle?_claim hd key).2.2⟩
  · have hlookup : (∃ i, ctx.registry.lookup handle = some i) ↔
        (ctx.registry.known handle).isSome := by
      simp [Registry.lookup, Registry.known, Option.isSome_iff_exists]
    rw [hlookup, hknown, List.find?_isSome]
    simp
  · intro handle i hlookup
    obtain ⟨r, hr, -⟩ := hs.lookup_eq_some_iff.mp hlookup
    exact (List.getElem?_eq_some_iff.mp hr).1
  · intro i hi
    have hr : ctx.registry.records[i]? = some _ := List.getElem?_eq_getElem hi
    refine ⟨_, hs.lookup_eq_some_iff.mpr ⟨_, hr, rfl⟩, fun handle hlookup => ?_⟩
    obtain ⟨r, hr', rfl⟩ := hs.lookup_eq_some_iff.mp hlookup
    rw [Option.some.inj (hr.symm.trans hr')]
  · intro i hi
    have hr : ctx.registry.records[i]? = some _ := List.getElem?_eq_getElem hi
    have hid := hs.numbered i _ hr
    refine ⟨_, Registry.get_eq_ok_iff.mpr hr, hid, by rw [Record.name, hid],
      hs.lookup_eq_some_iff.mpr ⟨_, hr, rfl⟩, ?_, Alignment.width_mem _⟩
    rw [← hknown, Registry.known, hs.find?_eq hr]
    rfl
  · intro key handle hhandle
    obtain ⟨i, rfl, hi⟩ := (Temporaries.handle?_eq_some_iff hd).mp hhandle
    exact ⟨i, (List.getElem?_eq_some_iff.mp hi).1, rfl⟩
  · intro i hi
    have hkey : ctx.temporaries.keys[i]? = some _ := List.getElem?_eq_getElem hi
    have hhandle := (Temporaries.handle?_eq_some_iff hd).mpr ⟨i, rfl, hkey⟩
    exact ⟨_, hhandle, fun key hkey' => Temporaries.key_eq_of_handle? hd hkey' hhandle⟩

theorem Advances.persists (h : ctx.Advances log ctx') (ho : ctx.Orderly) : ctx.Persists ctx' := by
  have hd' := h.serves.temporaries.distinct ho.distinct
  obtain ⟨more, hkeys⟩ := h.serves.temporaries.keys
  refine ⟨fun handle i hlookup => ?_, fun i r hget => ?_, fun key handle hhandle => ?_⟩
  · obtain ⟨r, hr, rfl⟩ := ho.sound.lookup_eq_some_iff.mp hlookup
    obtain ⟨r', hr', hwidens⟩ := h.widens i r hr
    exact h.sound.lookup_eq_some_iff.mpr ⟨r', hr', hwidens.handle⟩
  · obtain ⟨r', hr', hwidens⟩ := h.widens i r (Registry.get_eq_ok_iff.mp hget)
    exact ⟨r', Registry.get_eq_ok_iff.mpr hr', hwidens.handle, hwidens.element,
      hwidens.signature, hwidens.width⟩
  · obtain ⟨i, rfl, hi⟩ := (Temporaries.handle?_eq_some_iff ho.distinct).mp hhandle
    refine (Temporaries.handle?_eq_some_iff hd').mpr ⟨i, rfl, ?_⟩
    rw [hkeys, List.getElem?_append_left (List.getElem?_eq_some_iff.mp hi).1, hi]

/-- After any calls the context is a table of what they asked for; later calls keep what it has
given out; binding keeps the texts that are recorded; and an object gets the number of its handle,
or is refused, exactly if its handle is there with another type or signature, which changes
nothing. -/
theorem run_tabulates (calls : List Call) :
    (empty.run calls).Tabulates (empty.log calls) ∧
    (∀ more, (empty.run calls).Persists (empty.run (calls ++ more))) ∧
    (∀ (t : Term) (i pass : Nat) (r : Record) (text : String), (empty.run calls).registry.get i =
      .ok r → r.accessName? pass = some text →
      ∃ r', (t.bind (empty.run calls)).context.registry.get i = .ok r' ∧
        r'.accessName? pass = some text) ∧
    ∀ (h : Handle) (e : ElementType) (signature : String),
      ((∃ f, (empty.run calls).registry.register h e signature = .error f) ↔
        ∃ i r, (empty.run calls).registry.lookup h = some i ∧
          (empty.run calls).registry.get i = .ok r ∧ (r.element ≠ e ∨ r.signature ≠ signature)) ∧
      (∀ i reg, (empty.run calls).registry.register h e signature = .ok (i, reg) → reg.lookup h =
        some i) ∧ ((∃ f, (empty.run calls).registry.register h e signature = .error f) →
        empty.run (calls ++ [.register h e signature]) = empty.run calls) := by
  have hrun := advances_run empty_orderly.sound calls
  have ho : (empty.run calls).Orderly :=
    ⟨hrun.sound, hrun.serves.temporaries.distinct empty_orderly.distinct⟩
  refine ⟨hrun.tabulates, fun more => ?_, fun t i pass r text hget htext => ?_,
    fun h e signature => ⟨?_, ?_, ?_⟩⟩
  · rw [run_append]
    exact (advances_run ho.sound more).persists ho
  · obtain ⟨r', hr', hgrows⟩ := (t.bind_grown ho.sound).grows i r (Registry.get_eq_ok_iff.mp hget)
    exact ⟨r', Registry.get_eq_ok_iff.mpr hr', hgrows.names pass text htext⟩
  · rw [Registry.register_error_iff]
    constructor
    · rintro ⟨r, hfind, hdiffers⟩
      obtain ⟨i, hi, hhandle⟩ := Registry.exists_of_find? hfind
      exact ⟨i, r, ho.sound.lookup_eq_some_iff.mpr ⟨r, hi, hhandle⟩,
        Registry.get_eq_ok_iff.mpr hi, hdiffers⟩
    · rintro ⟨i, r, hlookup, hget, hdiffers⟩
      obtain ⟨s, hs, rfl⟩ := ho.sound.lookup_eq_some_iff.mp hlookup
      obtain rfl : s = r := Option.some.inj (hs.symm.trans (Registry.get_eq_ok_iff.mp hget))
      exact ⟨s, ho.sound.find?_eq hs, hdiffers⟩
  · intro i reg hregister
    rcases Registry.register_cases hregister with ⟨r, hfind, -, -, rfl, rfl⟩ | ⟨hnone, rfl, rfl⟩
    · rw [Registry.lookup, hfind, Option.map_some]
    · exact (ho.sound.snoc hnone e signature).lookup_eq_some_iff.mpr
        ⟨_, List.getElem?_concat_length, rfl⟩
  · rintro ⟨f, hfault⟩
    have hcall : (empty.run calls).call (.register h e signature) = empty.run calls := by
      simp only [call, hfault]
      rfl
    rw [run_append]
    exact hcall

end Context

end LinearKernels
