import LinearKernels.TermText
import LinearKernels.Proofs.Outcome
import LinearKernels.Proofs.TermShape

/-!
Reading keys from the left. A key is a concatenation without separators; what follows a
numeral is never a digit, what follows a leaf never looks like a view, and the words for
operations differ from all beginnings of keys. So a text that begins with a key determines
the term up to its binding: equal keys come from terms of the same structure whose leaves
have the same storage, the same element type and the same record number.
-/

namespace LinearKernels

/-! ### Numerals and words -/

/-- The characters of a class in front of others. -/
theorem takeWhile_dropWhile_append {p : Char → Bool} {us rest : List Char}
    (hus : ∀ c ∈ us, p c = true) (hrest : ∀ c ∈ rest.head?, p c = false) :
    (us ++ rest).takeWhile p = us ∧ (us ++ rest).dropWhile p = rest := by
  have hstop : rest.takeWhile p = [] ∧ rest.dropWhile p = rest := by
    cases rest with
    | nil => exact ⟨rfl, rfl⟩
    | cons c rest => simp [hrest c rfl]
  rw [List.takeWhile_append_of_pos hus, List.dropWhile_append_of_pos hus, hstop.1, hstop.2]
  exact ⟨List.append_nil us, rfl⟩

/-- The text does not go on with a digit. -/
def StopsNumeral (u : List Char) : Prop :=
  ∀ c, u.head? = some c → c.isDigit = false

theorem isDigit_of_mem_decimal {n : Nat} {c : Char} (h : c ∈ (decimal n).toList) :
    c.isDigit = true := by
  rw [decimal, String.toList_ofList] at h
  exact Nat.isDigit_of_mem_toDigits (by omega) (by omega) h

theorem takeWhile_isDigit_of_stops {u : List Char} (h : StopsNumeral u) :
    u.takeWhile Char.isDigit = [] := by
  cases u with
  | nil => rfl
  | cons c rest => simp [h c rfl]

/-- A numeral at the beginning of a text can be read off. -/
theorem decimal_append_cancel {m n : Nat} {u v : List Char} (hu : StopsNumeral u)
    (hv : StopsNumeral v) (h : (decimal m).toList ++ u = (decimal n).toList ++ v) :
    m = n ∧ u = v := by
  have hdigits : (decimal m).toList = (decimal n).toList := by
    have := congrArg (List.takeWhile Char.isDigit) h
    rwa [List.takeWhile_append_of_pos fun c hc => isDigit_of_mem_decimal hc,
      List.takeWhile_append_of_pos fun c hc => isDigit_of_mem_decimal hc,
      takeWhile_isDigit_of_stops hu, takeWhile_isDigit_of_stops hv, List.append_nil,
      List.append_nil] at this
  have hmn : m = n := by
    rw [← decimalValue_toList_decimal m, hdigits, decimalValue_toList_decimal]
  rw [hdigits] at h
  exact ⟨hmn, List.append_cancel_left h⟩

/-- The width part of a vector type. -/
def Alignment.suffix (a : Alignment) : String :=
  if a = one then "" else decimal a.width

theorem Alignment.vectorType_eq (a : Alignment) (e : ElementType) :
    a.vectorType e = e.name ++ a.suffix := by
  unfold vectorType suffix
  split <;> simp

theorem Alignment.toList_suffix (a : Alignment) :
    a.suffix.toList =
      match a with
      | one => []
      | two => ['2']
      | four => ['4']
      | eight => ['8']
      | sixteen => ['1', '6'] := by
  cases a <;> decide

theorem Alignment.suffix_read {a b : Alignment} {u v : List Char}
    (h : a.suffix.toList ++ '_' :: u = b.suffix.toList ++ '_' :: v) : a = b ∧ u = v := by
  rw [toList_suffix, toList_suffix] at h
  cases a <;> cases b <;> simp at h <;> exact ⟨rfl, h⟩

theorem vectorType_read {a b : Alignment} {e f : ElementType} {u v : List Char}
    (h : (a.vectorType e).toList ++ ("_".toList ++ u) =
      (b.vectorType f).toList ++ ("_".toList ++ v)) : a = b ∧ e = f ∧ u = v := by
  rw [Alignment.vectorType_eq, Alignment.vectorType_eq] at h
  simp only [String.toList_append, List.append_assoc] at h
  cases e <;> cases f <;> simp [ElementType.name] at h <;>
    exact ⟨(Alignment.suffix_read h).1, rfl, (Alignment.suffix_read h).2⟩

theorem element_read {e f : ElementType} {u v : List Char}
    (h : e.name.toList ++ ("_".toList ++ u) = f.name.toList ++ ("_".toList ++ v)) :
    e = f ∧ u = v := by
  cases e <;> cases f <;> simp [ElementType.name] at h <;> exact ⟨rfl, h⟩

/-! ### Leaves -/

theorem Argument.key_eq_ok_iff {a : Argument} {reg : Registry} {k : String} :
    a.key reg = .ok k ↔ ∃ r, a.info reg = .ok r ∧ k = a.storage.keyText r := by
  rw [key, Outcome.bind_eq_ok_iff]
  constructor
  · rintro ⟨r, hr, hk⟩
    exact ⟨r, hr, (Except.ok.inj hk).symm⟩
  · rintro ⟨r, hr, rfl⟩
    exact ⟨r, hr, rfl⟩

/-- The two records are written alike in keys of operands with the given storage. Only
vectors and matrices show their width. -/
def Record.SameKey (s : Storage) (r r' : Record) : Prop :=
  r.id = r'.id ∧ r.element = r'.element ∧ (s.shape ≠ .scalar → r.alignment = r'.alignment)

/-- The text does not go on with a digit or with a view. -/
def StopsKey (u : List Char) : Prop :=
  StopsNumeral u ∧ ∀ w, u ≠ '_' :: 's' :: w

theorem View.eq_whole_of_isContiguous {v : View} (h : v.isContiguous = true) : v = whole := by
  obtain ⟨start, stride⟩ := v
  simp only [isContiguous, Bool.and_eq_true, decide_eq_true_eq] at h
  obtain ⟨rfl, rfl⟩ := h
  rfl

theorem stopsNumeral_cons {c : Char} {u : List Char} (h : c.isDigit = false) :
    StopsNumeral (c :: u) := by
  intro d hd
  obtain rfl : c = d := by simpa using hd
  exact h

theorem View.stopsNumeral_keyText (v : View) {u : List Char} (hu : StopsKey u) :
    StopsNumeral (v.keyText.toList ++ u) := by
  unfold keyText
  split
  · simpa using hu.1
  · simp only [String.toList_append, List.append_assoc]
    exact stopsNumeral_cons rfl

theorem View.keyText_read {v w : View} {u u' : List Char} (hu : StopsKey u) (hu' : StopsKey u')
    (h : v.keyText.toList ++ u = w.keyText.toList ++ u') : v = w ∧ u = u' := by
  unfold keyText at h
  by_cases hv : v.isContiguous = true <;> by_cases hw : w.isContiguous = true
  · rw [if_pos hv, if_pos hw] at h
    exact ⟨(eq_whole_of_isContiguous hv).trans (eq_whole_of_isContiguous hw).symm,
      by simpa using h⟩
  · rw [if_pos hv, if_neg hw] at h
    simp only [String.toList_append, List.append_assoc] at h
    exact absurd h (hu.2 _)
  · rw [if_neg hv, if_pos hw] at h
    simp only [String.toList_append, List.append_assoc] at h
    exact absurd h.symm (hu'.2 _)
  · rw [if_neg hv, if_neg hw] at h
    simp only [String.toList_append, List.append_assoc] at h
    have hnum := List.append_cancel_left h
    obtain ⟨hstride, hrest⟩ := decimal_append_cancel (stopsNumeral_cons (by decide))
      (stopsNumeral_cons (by decide)) hnum
    obtain ⟨hstart, heq⟩ := decimal_append_cancel hu.1 hu'.1 (List.cons.inj hrest).2
    obtain ⟨start, stride⟩ := v
    obtain ⟨start', stride'⟩ := w
    exact ⟨by simp_all, heq⟩

/-- No type begins like the mark of a transposed matrix. -/
theorem vectorType_head (a : Alignment) (e : ElementType) :
    ∃ c rest, (a.vectorType e).toList = c :: rest ∧ c ≠ 't' := by
  rw [Alignment.vectorType_eq, String.toList_append]
  cases e <;> exact ⟨_, _, rfl, by decide⟩

/-- Storage order and transposition in a key. -/
theorem layoutText_read {row row' trans trans' : Bool} {a a' : Alignment} {e e' : ElementType}
    {u u' : List Char}
    (h : (if row then "row" else "col").toList ++
        ((if trans then "_t" else "").toList ++ ("_".toList ++ ((a.vectorType e).toList ++ u))) =
      (if row' then "row" else "col").toList ++
        ((if trans' then "_t" else "").toList ++
      ("_".toList ++ ((a'.vectorType e').toList ++ u')))) :
    row = row' ∧ trans = trans' ∧
      (a.vectorType e).toList ++ u = (a'.vectorType e').toList ++ u' := by
  obtain ⟨c, rest, hc, hne⟩ := vectorType_head a e
  obtain ⟨c', rest', hc', hne'⟩ := vectorType_head a' e'
  rw [hc, hc'] at h ⊢
  cases row <;> cases row' <;> cases trans <;> cases trans' <;> simp at h ⊢
  all_goals first
    | exact h
    | exact hne h.1
    | exact hne' h.1.symm

/-- A leaf's key at the beginning of a text can be read off. -/
theorem Storage.keyText_read {s s' : Storage} {r r' : Record} {u u' : List Char}
    (hu : StopsKey u) (hu' : StopsKey u')
    (h : (s.keyText r).toList ++ u = (s'.keyText r').toList ++ u') :
    s = s' ∧ r.SameKey s r' ∧ u = u' := by
  cases s with
  | hostScalar =>
    cases s' with
    | hostScalar =>
      simp only [keyText, String.toList_append, List.append_assoc] at h
      obtain ⟨he, hrest⟩ := element_read (List.append_cancel_left h)
      obtain ⟨hid, heq⟩ := decimal_append_cancel hu.1 hu'.1 hrest
      exact ⟨rfl, ⟨hid, he, fun hs => absurd rfl hs⟩, heq⟩
    | deviceScalar | vector | matrix => simp [keyText] at h
  | deviceScalar =>
    cases s' with
    | deviceScalar =>
      simp only [keyText, String.toList_append, List.append_assoc] at h
      obtain ⟨he, hrest⟩ := element_read (List.append_cancel_left h)
      obtain ⟨hid, heq⟩ := decimal_append_cancel hu.1 hu'.1 hrest
      exact ⟨rfl, ⟨hid, he, fun hs => absurd rfl hs⟩, heq⟩
    | hostScalar | vector | matrix => simp [keyText] at h
  | vector v =>
    cases s' with
    | vector w =>
      simp only [keyText, Record.elementText, String.toList_append, List.append_assoc] at h
      obtain ⟨ha, he, hrest⟩ := vectorType_read (List.append_cancel_left h)
      obtain ⟨hid, hview⟩ := decimal_append_cancel (v.stopsNumeral_keyText hu)
        (w.stopsNumeral_keyText hu') hrest
      obtain ⟨rfl, heq⟩ := View.keyText_read hu hu' hview
      exact ⟨rfl, ⟨hid, he, fun _ => ha⟩, heq⟩
    | hostScalar | deviceScalar | matrix => simp [keyText] at h
  | matrix l =>
    cases s' with
    | matrix l' =>
      obtain ⟨row, trans⟩ := l
      obtain ⟨row', trans'⟩ := l'
      simp only [keyText, Record.elementText, String.toList_append, List.append_assoc] at h
      obtain ⟨rfl, rfl, htype⟩ := layoutText_read (List.append_cancel_left h)
      obtain ⟨ha, he, hrest⟩ := vectorType_read htype
      obtain ⟨hid, heq⟩ := decimal_append_cancel hu.1 hu'.1 hrest
      exact ⟨rfl, ⟨hid, he, fun _ => ha⟩, heq⟩
    | hostScalar | deviceScalar | vector => simp [keyText] at h

/-! ### Operations -/

/-- How keys begin: with an open bracket or with the word for a kind of storage. -/
def BeginsKey (u : List Char) : Prop :=
  ∃ c d rest, u = c :: d :: rest ∧
    (c, d) ∈ [('p', '_'), ('h', 's'), ('g', 's'), ('v', 'e'), ('m', 'a')]

theorem BeginsKey.append {u : List Char} (h : BeginsKey u) (v : List Char) :
    BeginsKey (u ++ v) := by
  obtain ⟨c, d, rest, rfl, hcd⟩ := h
  exact ⟨c, d, rest ++ v, rfl, hcd⟩

theorem beginsKey_keyText (s : Storage) (r : Record) : BeginsKey (s.keyText r).toList := by
  cases s <;> simp only [Storage.keyText, String.toList_append, List.append_assoc]
  · exact ⟨'h', 's', _, rfl, by simp⟩
  · exact ⟨'g', 's', _, rfl, by simp⟩
  · exact ⟨'v', 'e', _, rfl, by simp⟩
  · exact ⟨'m', 'a', _, rfl, by simp⟩

theorem stopsKey_opName (op : BinaryOp) (u : List Char) : StopsKey (op.name.toList ++ u) := by
  cases op <;> exact ⟨stopsNumeral_cons rfl, fun w h => by simp [BinaryOp.name] at h⟩

theorem stopsKey_close (u : List Char) : StopsKey ("_p".toList ++ u) :=
  ⟨stopsNumeral_cons rfl, fun w h => by simp at h⟩

/-- No word for an operation begins another. -/
theorem opName_read {op op' : BinaryOp} {u u' : List Char}
    (h : op.name.toList ++ u = op'.name.toList ++ u') : op = op' ∧ u = u' := by
  cases op <;> cases op' <;> simp [BinaryOp.name] at h <;> exact ⟨rfl, h⟩

/-- The words `tan` and `tanh` are told apart by what may follow them. -/
theorem unaryName_read {op op' : UnaryOp} {u u' : List Char} (hu : BeginsKey u)
    (hu' : BeginsKey u') (h : op.name.toList ++ u = op'.name.toList ++ u') :
    op = op' ∧ u = u' := by
  obtain ⟨c, d, rest, rfl, hcd⟩ := hu
  obtain ⟨c', d', rest', rfl, hcd'⟩ := hu'
  simp only [List.mem_cons, Prod.mk.injEq, List.not_mem_nil, or_false] at hcd hcd'
  cases op <;> cases op' <;> simp [UnaryOp.name] at h <;>
    first | exact ⟨rfl, by simpa using h⟩ | grind

/-- No function's word begins like a key. -/
theorem unaryName_ne_key {op : UnaryOp} {u u' : List Char} (hu' : BeginsKey u') :
    op.name.toList ++ u ≠ u' := by
  obtain ⟨c', d', rest', rfl, hcd'⟩ := hu'
  simp only [List.mem_cons, Prod.mk.injEq, List.not_mem_nil, or_false] at hcd'
  intro h
  cases op <;> simp [UnaryOp.name] at h <;> grind

namespace Term

theorem toList_joinKeys (op : BinaryOp) (kl kr : String) :
    (joinKeys op kl kr).toList =
      "p_".toList ++ (kl.toList ++ (op.name.toList ++ (kr.toList ++ "_p".toList))) := by
  simp only [joinKeys, String.toList_append, List.append_assoc]

/-- The key of a term with two operands is its operation's key over theirs. -/
theorem key_operands_iff {t l r : Term} {op : BinaryOp} (h : t.operands? = some (op, l, r))
    {reg : Registry} {k : String} :
    t.key reg = .ok k ↔
      ∃ kl kr, l.key reg = .ok kl ∧ r.key reg = .ok kr ∧ k = joinKeys op kl kr := by
  have hpair : t.key reg = pairKey reg op l r := by
    cases t <;> simp only [operands?, Option.some.injEq, Prod.mk.injEq, reduceCtorEq] at h <;>
      obtain ⟨rfl, rfl, rfl⟩ := h <;> rfl
  rw [hpair, pairKey, Outcome.bind_eq_ok_iff]
  constructor
  · rintro ⟨kl, hl, hr⟩
    obtain ⟨kr, hr, hk⟩ := Outcome.bind_eq_ok_iff.mp hr
    exact ⟨kl, kr, hl, hr, (Except.ok.inj hk).symm⟩
  · rintro ⟨kl, kr, hl, hr, rfl⟩
    exact ⟨kl, hl, by rw [hr]; rfl⟩

theorem key_unary_iff {op : UnaryOp} {sub : Term} {reg : Registry} {k : String} :
    (unary op sub).key reg = .ok k ↔
      ∃ ks, sub.key reg = .ok ks ∧ k = "p_" ++ op.name ++ ks ++ "_p" := by
  rw [key, Outcome.bind_eq_ok_iff]
  constructor
  · rintro ⟨ks, hs, hk⟩
    exact ⟨ks, hs, (Except.ok.inj hk).symm⟩
  · rintro ⟨ks, hs, rfl⟩
    exact ⟨ks, hs, rfl⟩

/-- A leaf, a function of a term, or an operation on two terms. -/
theorem leaf_or_unary_or_operands (t : Term) :
    (∃ a, t = leaf a) ∨ (∃ op sub, t = unary op sub) ∨
    ∃ op l r, t.operands? = some (op, l, r) := by
  cases t with
  | leaf a => exact .inl ⟨a, rfl⟩
  | unary op sub => exact .inr (.inl ⟨op, sub, rfl⟩)
  | binary op l r => exact .inr (.inr ⟨op, l, r, rfl⟩)
  | matMat l r => exact .inr (.inr ⟨.prod, l, r, rfl⟩)
  | matVec l r => exact .inr (.inr ⟨.prod, l, r, rfl⟩)
  | inner l r _ _ => exact .inr (.inr ⟨.mul, l, r, rfl⟩)

theorem beginsKey_key {t : Term} {reg : Registry} {k : String} (h : t.key reg = .ok k) :
    BeginsKey k.toList := by
  rcases leaf_or_unary_or_operands t with ⟨a, rfl⟩ | ⟨op, sub, rfl⟩ | ⟨op, l, r, ht⟩
  · obtain ⟨r, -, rfl⟩ := Argument.key_eq_ok_iff.mp h
    exact beginsKey_keyText a.storage r
  · obtain ⟨ks, -, rfl⟩ := key_unary_iff.mp h
    simp only [String.toList_append, List.append_assoc]
    exact ⟨'p', '_', _, rfl, by simp⟩
  · obtain ⟨kl, kr, -, -, rfl⟩ := (key_operands_iff ht).mp h
    rw [toList_joinKeys]
    exact ⟨'p', '_', _, rfl, by simp⟩

/-! ### Terms -/

/-- The two terms have the same operations at every place, and related leaves. Computing
passes and temporaries are not compared. -/
inductive Alike (R : Argument → Argument → Prop) : Term → Term → Prop
  | leaf {a b : Argument} : R a b → Alike R (.leaf a) (.leaf b)
  | unary {op : UnaryOp} {s t : Term} : Alike R s t → Alike R (.unary op s) (.unary op t)
  | binary {op : BinaryOp} {l r l' r' : Term} :
      Alike R l l' → Alike R r r' → Alike R (.binary op l r) (.binary op l' r')
  | matMat {l r l' r' : Term} :
      Alike R l l' → Alike R r r' → Alike R (.matMat l r) (.matMat l' r')
  | matVec {l r l' r' : Term} :
      Alike R l l' → Alike R r r' → Alike R (.matVec l r) (.matVec l' r')
  | inner {l r l' r' : Term} {c c' : Option Nat} {t t' : Option Argument} :
      Alike R l l' → Alike R r r' → Alike R (.inner l r c t) (.inner l' r' c' t')

/-- Whatever else is known of the leaves can be added to their relation. -/
theorem Alike.mono {R S : Argument → Argument → Prop} {t t' : Term} (h : Alike R t t')
    (hRS : ∀ a ∈ t.leaves, ∀ b ∈ t'.leaves, R a b → S a b) : Alike S t t' := by
  have pair : ∀ {l r l' r' : Term},
      (∀ a ∈ l.leaves ++ r.leaves, ∀ b ∈ l'.leaves ++ r'.leaves, R a b → S a b) →
      (∀ a ∈ l.leaves, ∀ b ∈ l'.leaves, R a b → S a b) ∧
        ∀ a ∈ r.leaves, ∀ b ∈ r'.leaves, R a b → S a b := fun h =>
    ⟨fun a ha b hb => h a (List.mem_append_left _ ha) b (List.mem_append_left _ hb),
      fun a ha b hb => h a (List.mem_append_right _ ha) b (List.mem_append_right _ hb)⟩
  induction h with
  | @leaf a b hab =>
    exact .leaf (hRS a (List.mem_singleton_self a) b (List.mem_singleton_self b) hab)
  | unary _ ih => exact .unary (ih hRS)
  | binary _ _ ihl ihr => exact .binary (ihl (pair hRS).1) (ihr (pair hRS).2)
  | matMat _ _ ihl ihr => exact .matMat (ihl (pair hRS).1) (ihr (pair hRS).2)
  | matVec _ _ ihl ihr => exact .matVec (ihl (pair hRS).1) (ihr (pair hRS).2)
  | inner _ _ ihl ihr => exact .inner (ihl (pair hRS).1) (ihr (pair hRS).2)

theorem Alike.shape_eq {R : Argument → Argument → Prop}
    (hR : ∀ a b, R a b → a.storage = b.storage) {t t' : Term} (h : Alike R t t') :
    t.shape = t'.shape := by
  induction h with
  | leaf hab => simp only [shape, Argument.shape, hR _ _ hab]
  | unary _ ih => exact ih
  | @binary op l r l' r' _ _ ihl ihr => cases op <;> simp only [shape, ihl, ihr]
  | matMat _ _ _ _ => rfl
  | matVec _ _ _ _ => rfl
  | inner _ _ _ _ => rfl

/-- The leaves are stored alike, and their records are written alike in keys. -/
def SameLeaf (reg reg' : Registry) (a b : Argument) : Prop :=
  a.storage = b.storage ∧
    ∃ r r', a.info reg = .ok r ∧ b.info reg' = .ok r' ∧ r.SameKey a.storage r'

theorem wellTyped_operands {t l r : Term} {op : BinaryOp} (h : t.operands? = some (op, l, r))
    (ht : t.WellTyped) : l.WellTyped ∧ r.WellTyped := by
  cases t <;> simp only [operands?, Option.some.injEq, Prod.mk.injEq, reduceCtorEq] at h <;>
    obtain ⟨rfl, rfl, rfl⟩ := h <;> exact ⟨ht.1, ht.2.1⟩

/-- Whatever text begins with a key of `t` tells `t` up to its binding. -/
def Readable (reg reg' : Registry) (t : Term) : Prop :=
  ∀ t' k k' u u', t.key reg = .ok k → t'.key reg' = .ok k' → t.WellTyped → t'.WellTyped →
    StopsKey u → StopsKey u' → k.toList ++ u = k'.toList ++ u' →
      Alike (SameLeaf reg reg') t t' ∧ u = u'

/-- A text that begins with the key of an operation tells the operation and its operands. -/
theorem operands_read {reg reg' : Registry} {l r : Term} (hl : Readable reg reg' l)
    (hr : Readable reg reg' r) {t t' : Term} {op : BinaryOp} (ht : t.operands? = some (op, l, r))
    {k k' : String} {u u' : List Char} (hk : t.key reg = .ok k) (hk' : t'.key reg' = .ok k')
    (wt : t.WellTyped) (wt' : t'.WellTyped)
    (h : k.toList ++ u = k'.toList ++ u') :
    ∃ l' r', t'.operands? = some (op, l', r') ∧ Alike (SameLeaf reg reg') l l' ∧
      Alike (SameLeaf reg reg') r r' ∧ u = u' := by
  obtain ⟨kl, kr, hkl, hkr, rfl⟩ := (key_operands_iff ht).mp hk
  obtain ⟨wl, wr⟩ := wellTyped_operands ht wt
  rw [toList_joinKeys] at h
  simp only [List.append_assoc] at h
  rcases leaf_or_unary_or_operands t' with ⟨a, rfl⟩ | ⟨op', sub, rfl⟩ | ⟨op', l', r', ht'⟩
  · obtain ⟨rec, -, rfl⟩ := Argument.key_eq_ok_iff.mp hk'
    cases hs : a.storage <;> simp [hs, Storage.keyText] at h
  · obtain ⟨ks, hks, rfl⟩ := key_unary_iff.mp hk'
    simp only [String.toList_append, List.append_assoc] at h
    have hcancel := List.append_cancel_left h
    exact absurd hcancel.symm (unaryName_ne_key ((beginsKey_key hkl).append _))
  · obtain ⟨kl', kr', hkl', hkr', rfl⟩ := (key_operands_iff ht').mp hk'
    obtain ⟨wl', wr'⟩ := wellTyped_operands ht' wt'
    rw [toList_joinKeys] at h
    simp only [List.append_assoc] at h
    obtain ⟨hll, hrest⟩ := hl l' kl kl' _ _ hkl hkl' wl wl' (stopsKey_opName _ _)
      (stopsKey_opName _ _) (List.append_cancel_left h)
    obtain ⟨rfl, hright⟩ := opName_read hrest
    obtain ⟨hrr, hclose⟩ := hr r' kr kr' _ _ hkr hkr' wr wr' (stopsKey_close _)
      (stopsKey_close _) hright
    exact ⟨l', r', ht', hll, hrr, List.append_cancel_left hclose⟩

/-- Operation and operands determine the kind of term: scalings and inner products have the
same word, but one has a scalar operand and the other none; the two matrix products differ
in the shape of the right operand. -/
theorem alike_of_operands {reg reg' : Registry} {t t' l r l' r' : Term} {op : BinaryOp}
    (ht : t.operands? = some (op, l, r)) (ht' : t'.operands? = some (op, l', r'))
    (wt : t.WellTyped) (wt' : t'.WellTyped) (hl : Alike (SameLeaf reg reg') l l')
    (hr : Alike (SameLeaf reg reg') r r') : Alike (SameLeaf reg reg') t t' := by
  have hls : l.shape = l'.shape := hl.shape_eq fun a b h => h.1
  have hrs : r.shape = r'.shape := hr.shape_eq fun a b h => h.1
  cases t <;> simp only [operands?, Option.some.injEq, Prod.mk.injEq, reduceCtorEq] at ht <;>
    obtain ⟨rfl, rfl, rfl⟩ := ht <;> cases t' <;>
    simp only [operands?, Option.some.injEq, Prod.mk.injEq, reduceCtorEq, false_and] at ht' <;>
    obtain ⟨hop, rfl, rfl⟩ := ht'
  case binary.binary => exact hop ▸ .binary hl hr
  case matMat.matMat => exact .matMat hl hr
  case matVec.matVec => exact .matVec hl hr
  case inner.inner => exact .inner hl hr
  all_goals try subst hop
  all_goals simp_all [WellTyped, accepts]

/-- Every key can be read off from the left. -/
theorem readable (reg reg' : Registry) (t : Term) : Readable reg reg' t := by
  induction t with
  | leaf a =>
    intro t' k k' u u' hk hk' wt wt' hu hu' h
    obtain ⟨rec, hrec, rfl⟩ := Argument.key_eq_ok_iff.mp hk
    rcases leaf_or_unary_or_operands t' with ⟨b, rfl⟩ | ⟨op, sub, rfl⟩ | ⟨op, l, r, ht'⟩
    · obtain ⟨rec', hrec', rfl⟩ := Argument.key_eq_ok_iff.mp hk'
      obtain ⟨hs, hsame, heq⟩ := Storage.keyText_read hu hu' h
      exact ⟨.leaf ⟨hs, rec, rec', hrec, hrec', hsame⟩, heq⟩
    · obtain ⟨ks, -, rfl⟩ := key_unary_iff.mp hk'
      cases hs : a.storage <;> simp [hs, Storage.keyText] at h
    · obtain ⟨kl, kr, -, -, rfl⟩ := (key_operands_iff ht').mp hk'
      rw [toList_joinKeys] at h
      cases hs : a.storage <;> simp [hs, Storage.keyText] at h
  | unary op sub ih =>
    intro t' k k' u u' hk hk' wt wt' hu hu' h
    obtain ⟨ks, hks, rfl⟩ := key_unary_iff.mp hk
    simp only [String.toList_append, List.append_assoc] at h
    rcases leaf_or_unary_or_operands t' with ⟨b, rfl⟩ | ⟨op', sub', rfl⟩ | ⟨op', l, r, ht'⟩
    · obtain ⟨rec', -, rfl⟩ := Argument.key_eq_ok_iff.mp hk'
      cases hs : b.storage <;> simp [hs, Storage.keyText] at h
    · obtain ⟨ks', hks', rfl⟩ := key_unary_iff.mp hk'
      simp only [String.toList_append, List.append_assoc] at h
      obtain ⟨rfl, hrest⟩ := unaryName_read ((beginsKey_key hks).append _)
        ((beginsKey_key hks').append _) (List.append_cancel_left h)
      obtain ⟨hsub, hrest⟩ := ih sub' ks ks' _ _ hks hks' wt.1 wt'.1 (stopsKey_close _)
        (stopsKey_close _) hrest
      exact ⟨.unary hsub, List.append_cancel_left hrest⟩
    · obtain ⟨kl, kr, hkl, hkr, rfl⟩ := (key_operands_iff ht').mp hk'
      rw [toList_joinKeys] at h
      simp only [List.append_assoc] at h
      exact absurd (List.append_cancel_left h) (unaryName_ne_key ((beginsKey_key hkl).append _))
  | binary op l r ihl ihr =>
    intro t' k k' u u' hk hk' wt wt' hu hu' h
    obtain ⟨l', r', ht', hl, hr, heq⟩ := operands_read ihl ihr rfl hk hk' wt wt' h
    exact ⟨alike_of_operands rfl ht' wt wt' hl hr, heq⟩
  | matMat l r ihl ihr =>
    intro t' k k' u u' hk hk' wt wt' hu hu' h
    obtain ⟨l', r', ht', hl, hr, heq⟩ := operands_read ihl ihr rfl hk hk' wt wt' h
    exact ⟨alike_of_operands rfl ht' wt wt' hl hr, heq⟩
  | matVec l r ihl ihr =>
    intro t' k k' u u' hk hk' wt wt' hu hu' h
    obtain ⟨l', r', ht', hl, hr, heq⟩ := operands_read ihl ihr rfl hk hk' wt wt' h
    exact ⟨alike_of_operands rfl ht' wt wt' hl hr, heq⟩
  | inner l r computed temporary ihl ihr =>
    intro t' k k' u u' hk hk' wt wt' hu hu' h
    obtain ⟨l', r', ht', hl, hr, heq⟩ := operands_read ihl ihr rfl hk hk' wt wt' h
    exact ⟨alike_of_operands rfl ht' wt wt' hl hr, heq⟩

theorem erase_eq_of_alike {R : Argument → Argument → Prop}
    (hR : ∀ a b, R a b → a.erase = b.erase) {t t' : Term} (h : Alike R t t') :
    t.erase = t'.erase := by
  induction h with
  | leaf hab => simp only [erase, hR _ _ hab]
  | unary _ ih => simp only [erase, ih]
  | binary _ _ ihl ihr => simp only [erase, ihl, ihr]
  | matMat _ _ ihl ihr => simp only [erase, ihl, ihr]
  | matVec _ _ ihl ihr => simp only [erase, ihl, ihr]
  | inner _ _ ihl ihr => simp only [erase, ihl, ihr]

/-- Equal keys come from terms of the same structure. -/
theorem alike_of_key_eq {reg reg' : Registry} {t t' : Term} {k : String} (hk : t.key reg = .ok k)
    (hk' : t'.key reg' = .ok k) (wt : t.WellTyped) (wt' : t'.WellTyped) :
    Alike (SameLeaf reg reg') t t' :=
  (readable reg reg' t t' k k [] [] hk hk' wt wt' ⟨fun _ h => by simp at h, by simp⟩
    ⟨fun _ h => by simp at h, by simp⟩ rfl).1

end Term

end LinearKernels
