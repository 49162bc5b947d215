import LinearKernels.Proofs.Contexts
import LinearKernels.Proofs.Emission
import LinearKernels.Proofs.PlanKeys
import Mathlib.Data.List.Forall2

/-!
What a key tells. Terms are made by the checked constructors and bound in contexts that have
been used in any way, before and after. Two such terms have the same key, each in its own
context, exactly if they have the same operations at every place and their leaves are the
same operands: stored alike, declared alike in a kernel, and with the same record number. The
same holds for lists of terms and their joined keys.
-/

namespace LinearKernels

/-! ### Operands -/

/-- Two arguments, each with its own registry, that a kernel cannot tell apart. -/
structure Argument.SameOperand (reg reg' : Registry) (a b : Argument) : Prop where
  storage : a.storage = b.storage
  element : a.element = b.element
  record : ∃ i, a.record = some i ∧ b.record = some i
  width : a.shape ≠ .scalar → ∃ text, a.elementText reg = .ok text ∧ b.elementText reg' = .ok text
  declared : ∃ text, a.declaration reg = .ok text ∧ b.declaration reg' = .ok text

/-- A type text tells width and element type. -/
theorem vectorType_inj {a b : Alignment} {e f : ElementType}
    (h : a.vectorType e = b.vectorType f) :
    a = b ∧ e = f := by
  have htext : (a.vectorType e).toList ++ ("_".toList ++ []) =
      (b.vectorType f).toList ++ ("_".toList ++ []) := by
    rw [h]
  obtain ⟨ha, he, -⟩ := vectorType_read htext
  exact ⟨ha, he⟩

namespace Term

variable {reg reg' : Registry} {a b : Argument}

/-- A bound argument and its record. -/
theorem exists_record (hs : reg.Sound) (ha : a.BoundIn reg) :
    ∃ r, a.info reg = .ok r ∧ a.record = some r.id ∧ r.element = a.element := by
  obtain ⟨i, r, hi, hr, hagrees⟩ := ha
  refine ⟨r, Argument.info_eq_ok_iff.mpr ⟨i, hi, hr⟩, ?_, hagrees.2.1⟩
  rw [hi, hs.numbered i r hr]

/-- Bound arguments that are written alike in keys are the same operand. -/
theorem sameLeaf_iff_sameOperand (hs : reg.Sound) (hs' : reg'.Sound) (ha : a.BoundIn reg)
    (hb : b.BoundIn reg') : SameLeaf reg reg' a b ↔ a.SameOperand reg reg' b := by
  obtain ⟨r, hr, hrecord, helement⟩ := exists_record hs ha
  obtain ⟨r', hr', hrecord', helement'⟩ := exists_record hs' hb
  have htext : a.elementText reg = .ok r.elementText := by rw [Argument.elementText, hr]; rfl
  have htext' : b.elementText reg' = .ok r'.elementText := by rw [Argument.elementText, hr']; rfl
  constructor
  · rintro ⟨hstorage, s, s', hs₁, hs₂, hid, hsame, hwidth⟩
    obtain rfl : s = r := Except.ok.inj (hs₁.symm.trans hr)
    obtain rfl : s' = r' := Except.ok.inj (hs₂.symm.trans hr')
    have hname : s.name = s'.name := by rw [Record.name, Record.name, hid]
    have hab : a.element = b.element := by rw [← helement, ← helement', hsame]
    have htexts : a.storage.shape ≠ .scalar → s.elementText = s'.elementText := by
      intro hshape
      rw [Record.elementText, Record.elementText, hwidth hshape, hsame]
    refine ⟨hstorage, hab, ⟨s.id, hrecord, hid ▸ hrecord'⟩, fun hshape => ?_, ?_⟩
    · exact ⟨_, htext, by rw [htexts hshape]; exact htext'⟩
    · -- the declaration shows the width of vectors and matrices only
      rw [Argument.declaration, Argument.declaration, hr, hr', Outcome.ok_bind,
        Outcome.ok_bind, ← hstorage]
      cases hst : a.storage with
      | hostScalar => exact ⟨_, rfl, by rw [hname, hab]; rfl⟩
      | deviceScalar => exact ⟨_, rfl, by rw [hname, hab]; rfl⟩
      | vector v => exact ⟨_, rfl, by rw [hname, htexts (by simp [hst, Storage.shape])]; rfl⟩
      | matrix l => exact ⟨_, rfl, by rw [hname, htexts (by simp [hst, Storage.shape])]; rfl⟩
  · intro h
    obtain ⟨i, hi, hi'⟩ := h.record
    have hid : r.id = r'.id := by
      rw [hrecord] at hi
      rw [hrecord'] at hi'
      exact Option.some.inj (hi.trans hi'.symm)
    refine ⟨h.storage, r, r', hr, hr', hid,
      by rw [helement, helement', h.element], fun hshape => ?_⟩
    obtain ⟨text, ht, ht'⟩ := h.width hshape
    have heq : r.elementText = r'.elementText := by
      rw [Except.ok.inj (htext.symm.trans ht), Except.ok.inj (htext'.symm.trans ht')]
    exact (vectorType_inj heq).1

/-! ### Keys of alike terms -/

theorem keyText_eq_of_sameKey {s : Storage} {r r' : Record} (h : r.SameKey s r') :
    s.keyText r = s.keyText r' := by
  obtain ⟨hid, helement, hwidth⟩ := h
  have htext : s.shape ≠ .scalar → r.elementText = r'.elementText := by
    intro hshape
    rw [Record.elementText, Record.elementText, hwidth hshape, helement]
  cases s with
  | hostScalar | deviceScalar => simp only [Storage.keyText, hid, helement]
  | vector v => simp only [Storage.keyText, hid, htext (by simp [Storage.shape])]
  | matrix l => simp only [Storage.keyText, hid, htext (by simp [Storage.shape])]

/-- Alike terms have the same key, each in its own registry. -/
theorem key_eq_of_alike {t t' : Term} (h : Alike (SameLeaf reg reg') t t') :
    t.key reg = t'.key reg' := by
  induction h with
  | leaf hab =>
    obtain ⟨hstorage, r, r', hr, hr', hsame⟩ := hab
    rw [key, key, Argument.key_eq_ok_iff.mpr ⟨r, hr, rfl⟩,
      Argument.key_eq_ok_iff.mpr ⟨r', hr', rfl⟩, ← hstorage, keyText_eq_of_sameKey hsame]
  | unary _ ih => rw [key, key, ih]
  | binary _ _ ihl ihr => rw [key, key, ihl, ihr]
  | matMat _ _ ihl ihr => rw [key, key, ihl, ihr]
  | matVec _ _ ihl ihr => rw [key, key, ihl, ihr]
  | inner _ _ ihl ihr => rw [key, key, ihl, ihr]

/-- The keys of several terms; none of them is empty. -/
theorem keys_ok {ts : List Term} (h : ∀ t ∈ ts, t.LeavesBound reg) :
    ∃ keys, ts.mapM (·.key reg) = .ok keys ∧ (";".intercalate keys = "" ↔ ts = []) := by
  obtain ⟨keys, hkeys⟩ := Outcome.mapM_ok fun t ht => (h t ht).exists_key
  refine ⟨keys, hkeys, ?_⟩
  cases ts with
  | nil =>
    cases hkeys
    simp
  | cons t ts =>
    obtain ⟨key, rest, hkey, -, rfl⟩ := Outcome.mapM_cons_eq_ok hkeys
    obtain ⟨c, d, more, hbegin, -⟩ := beginsKey_key hkey
    refine iff_of_false (fun hempty => ?_) (List.cons_ne_nil t ts)
    have htext := congrArg String.toList hempty
    rw [toList_intercalate_cons, hbegin] at htext
    cases htext

theorem forall₂_of_joined_keys {ts ts' : List Term} {ks ks' : List String}
    (hk : ts.mapM (·.key reg) = .ok ks) (hk' : ts'.mapM (·.key reg') = .ok ks')
    (hempty : ";".intercalate ks = "" ↔ ts = []) (hempty' : ";".intercalate ks' = "" ↔ ts' = [])
    (wt : ∀ t ∈ ts, t.WellTyped) (wt' : ∀ t ∈ ts', t.WellTyped)
    (h : ";".intercalate ks = ";".intercalate ks') :
    List.Forall₂ (Alike (SameLeaf reg reg')) ts ts' := by
  by_cases hne : ts = []
  · have hne' : ts' = [] := hempty'.mp (h ▸ hempty.mpr hne)
    rw [hne, hne']
    exact .nil
  · have hne' : ts' ≠ [] := fun hnil => hne (hempty.mp (h.trans (hempty'.mpr hnil)))
    obtain ⟨hlength, hzip⟩ := alike_of_joined_keys hk hk' wt wt' hne hne' h
    exact List.forall₂_iff_zip.mpr ⟨hlength, fun hmem => hzip _ hmem⟩

theorem mapM_key_eq_of_forall₂ {ts ts' : List Term}
    (h : List.Forall₂ (Alike (SameLeaf reg reg')) ts ts') :
    ts.mapM (·.key reg) = ts'.mapM (·.key reg') := by
  induction h with
  | nil => rfl
  | cons hhead _ ih => rw [List.mapM_cons, List.mapM_cons, key_eq_of_alike hhead, ih]

/-! ### Terms made by the checked constructors -/

/-- The term is built by the checked constructors only. -/
inductive Constructed : Term → Prop
  | leaf (a : Argument) : Constructed (.leaf a)
  | unary {op : UnaryOp} {s t : Term} : Constructed s → mkUnary op s = .ok t → Constructed t
  | binary {op : BinaryOp} {l r t : Term} :
      Constructed l → Constructed r → mkBinary op l r = .ok t → Constructed t
  | matMat {l r t : Term} : Constructed l → Constructed r → mkMatMat l r = .ok t → Constructed t
  | matVec {l r t : Term} : Constructed l → Constructed r → mkMatVec l r = .ok t → Constructed t
  | inner {l r t : Term} : Constructed l → Constructed r → mkInner l r = .ok t → Constructed t

/-- Whatever the constructors accept is well typed. -/
theorem Constructed.wellTyped {t : Term} (h : t.Constructed) : t.WellTyped := by
  induction h with
  | leaf a => trivial
  | @unary op s t _ ht ih =>
    unfold mkUnary at ht
    split at ht
    · cases ht
    · next hfloat =>
      obtain rfl := Except.ok.inj ht
      refine ⟨ih, fun hrequires => ?_⟩
      simpa [hrequires] using hfloat
  | @binary op l r t _ _ ht ihl ihr =>
    unfold mkBinary at ht
    split at ht
    · next haccepts =>
      obtain rfl := Except.ok.inj ht
      exact ⟨ihl, ihr, haccepts.1, haccepts.2⟩
    · cases ht
  | @matMat l r t _ _ ht ihl ihr =>
    unfold mkMatMat at ht
    split at ht
    · next htypes =>
      obtain rfl := Except.ok.inj ht
      exact ⟨ihl, ihr, htypes⟩
    · cases ht
  | @matVec l r t _ _ ht ihl ihr =>
    unfold mkMatVec at ht
    split at ht
    · next htypes =>
      obtain rfl := Except.ok.inj ht
      exact ⟨ihl, ihr, htypes⟩
    · cases ht
  | @inner l r t _ _ ht ihl ihr =>
    unfold mkInner at ht
    split at ht
    · next htypes =>
      obtain rfl := Except.ok.inj ht
      exact ⟨ihl, ihr, htypes⟩
    · cases ht

/-- The term was made by the constructors and bound in a context, which became `ctx` since. -/
def MadeIn (ctx : Context) (t : Term) : Prop :=
  ∃ (written : Term) (before after : Context), written.Constructed ∧
    Context.empty.Evolves before ∧ written.bindAll before = .ok (t, after) ∧ after.Evolves ctx

/-- What making a term leaves behind. -/
structure Made (ctx : Context) (t : Term) : Prop where
  sound : ctx.registry.Sound
  typed : t.WellTyped
  bound : t.LeavesBound ctx.registry

theorem MadeIn.made {ctx : Context} {t : Term} (h : t.MadeIn ctx) : Made ctx t := by
  obtain ⟨written, before, after, hwritten, hbefore, hbind, hafter⟩ := h
  obtain ⟨herase, hsound, hleaves⟩ := grown_of_bindAll hbefore.sound hbind
  have hextends := hafter.extends hsound
  exact ⟨hextends.sound, hwritten.wellTyped.of_erase_eq herase.symm,
    hleaves.retains hextends.retains⟩

theorem Made.alike_iff {ctx ctx' : Context} {t t' : Term} (h : Made ctx t) (h' : Made ctx' t') :
    Alike (SameLeaf ctx.registry ctx'.registry) t t' ↔
      Alike (Argument.SameOperand ctx.registry ctx'.registry) t t' := by
  constructor
  · intro halike
    refine halike.mono fun a ha b hb => ?_
    exact (sameLeaf_iff_sameOperand h.sound h'.sound (h.bound a ha) (h'.bound b hb)).mp
  · intro halike
    refine halike.mono fun a ha b hb => ?_
    exact (sameLeaf_iff_sameOperand h.sound h'.sound (h.bound a ha) (h'.bound b hb)).mpr

theorem forall₂_alike_iff {ctx ctx' : Context} {ts ts' : List Term} (h : ∀ t ∈ ts, Made ctx t)
    (h' : ∀ t ∈ ts', Made ctx' t) :
    List.Forall₂ (Alike (SameLeaf ctx.registry ctx'.registry)) ts ts' ↔
      List.Forall₂ (Alike (Argument.SameOperand ctx.registry ctx'.registry)) ts ts' := by
  rw [List.forall₂_iff_zip, List.forall₂_iff_zip]
  refine and_congr_right fun _ => forall_congr' fun t => forall_congr' fun t' =>
    forall_congr' fun hmem => ?_
  exact (h t (List.of_mem_zip hmem).1).alike_iff (h' t' (List.of_mem_zip hmem).2)

end Term

/-- Keys are the same exactly for terms of one structure over the same operands, and so are
the joined keys of several terms. -/
theorem keys_unambiguous {ctx ctx' : Context} :
    (∀ t t' : Term, t.MadeIn ctx → t'.MadeIn ctx' →
      ∃ key key', t.key ctx.registry = .ok key ∧ t'.key ctx'.registry = .ok key' ∧
        (key = key' ↔ Term.Alike (Argument.SameOperand ctx.registry ctx'.registry) t t')) ∧
    ∀ ts ts' : List Term, (∀ t ∈ ts, t.MadeIn ctx) → (∀ t ∈ ts', t.MadeIn ctx') →
      ∃ keys keys', ts.mapM (·.key ctx.registry) = .ok keys ∧
        ts'.mapM (·.key ctx'.registry) = .ok keys' ∧
        (";".intercalate keys = ";".intercalate keys' ↔
          List.Forall₂ (Term.Alike (Argument.SameOperand ctx.registry ctx'.registry))
            ts ts') := by
  constructor
  · intro t t' ht ht'
    have h := ht.made
    have h' := ht'.made
    obtain ⟨key, hkey⟩ := h.bound.exists_key
    obtain ⟨key', hkey'⟩ := h'.bound.exists_key
    refine ⟨key, key', hkey, hkey', ?_⟩
    rw [← h.alike_iff h']
    constructor
    · rintro rfl
      exact Term.alike_of_key_eq hkey hkey' h.typed h'.typed
    · intro halike
      exact Except.ok.inj (hkey.symm.trans ((Term.key_eq_of_alike halike).trans hkey'))
  · intro ts ts' hts hts'
    have h : ∀ t ∈ ts, Term.Made ctx t := fun t ht => (hts t ht).made
    have h' : ∀ t ∈ ts', Term.Made ctx' t := fun t ht => (hts' t ht).made
    obtain ⟨keys, hkeys, hempty⟩ := Term.keys_ok fun t ht => (h t ht).bound
    obtain ⟨keys', hkeys', hempty'⟩ := Term.keys_ok fun t ht => (h' t ht).bound
    refine ⟨keys, keys', hkeys, hkeys', ?_⟩
    rw [← Term.forall₂_alike_iff h h']
    constructor
    · exact Term.forall₂_of_joined_keys hkeys hkeys' hempty hempty' (fun t ht => (h t ht).typed)
        fun t ht => (h' t ht).typed
    · intro halike
      rw [Except.ok.inj (hkeys.symm.trans ((Term.mapM_key_eq_of_forall₂ halike).trans hkeys'))]

/-- The inner product of `tanh v` and `w`, for the vectors with handles `k` and `k + 1`. -/
def tanhDot (k : Nat) : Term :=
  .inner (.unary .tanh (.leaf (.ofHandle (.buffer k) .float (.vector .whole))))
    (.leaf (.ofHandle (.buffer (k + 1)) .float (.vector .whole))) none none

theorem constructed_tanhDot (k : Nat) : (tanhDot k).Constructed := by
  let v : Term := .leaf (.ofHandle (.buffer k) .float (.vector .whole))
  let w : Term := .leaf (.ofHandle (.buffer (k + 1)) .float (.vector .whole))
  have htanh : Term.mkUnary .tanh v = .ok (.unary .tanh v) := rfl
  have hinner : Term.mkInner (.unary .tanh v) w = .ok (tanhDot k) := rfl
  exact .inner (.unary (.leaf _) htanh) (.leaf _) hinner

theorem keys_unambiguous_tanhDot :
    ∃ t t' ctx ctx', (tanhDot 1).bindAll .empty = .ok (t, ctx) ∧
      (tanhDot 7).bindAll .empty = .ok (t', ctx') ∧
      t.key ctx.registry = .ok "p_p_tanhvec_float_0_pmulvec_float_1_p" ∧
      t'.key ctx'.registry = .ok "p_p_tanhvec_float_0_pmulvec_float_1_p" ∧
      Term.Alike (Argument.SameOperand ctx.registry ctx'.registry) t t' := by
  have hmade : ∀ k t ctx, (tanhDot k).bindAll .empty = .ok (t, ctx) → t.MadeIn ctx :=
    fun k t ctx h => ⟨tanhDot k, .empty, ctx, constructed_tanhDot k, .refl, h, .refl⟩
  obtain ⟨⟨t, ctx⟩, hbind, hkey⟩ := Outcome.exists_ok_of_map (x := (tanhDot 1).bindAll .empty)
    (f := fun p => (p.1.key p.2.registry).toOption)
    (b := some "p_p_tanhvec_float_0_pmulvec_float_1_p") (by decide +kernel)
  obtain ⟨⟨t', ctx'⟩, hbind', hkey'⟩ := Outcome.exists_ok_of_map (x := (tanhDot 7).bindAll .empty)
    (f := fun p => (p.1.key p.2.registry).toOption)
    (b := some "p_p_tanhvec_float_0_pmulvec_float_1_p") (by decide +kernel)
  obtain ⟨key, key', hk, hk', hiff⟩ :=
    keys_unambiguous.1 t t' (hmade 1 t ctx hbind) (hmade 7 t' ctx' hbind')
  rw [hk] at hkey
  rw [hk'] at hkey'
  obtain rfl := Option.some.inj hkey
  obtain rfl := Option.some.inj hkey'
  exact ⟨t, t', ctx, ctx', hbind, hbind', hk, hk', hiff.mp rfl⟩

end LinearKernels
