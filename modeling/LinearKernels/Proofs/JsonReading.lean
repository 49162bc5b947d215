import LinearKernels.Proofs.JsonText
import LinearKernels.Proofs.KeyReading

/-!
The reader of JSON texts is exact. Each of its parts takes a text of the kind it looks for off
the front, and it takes all such texts, if nothing follows that would make them longer. So the
whole reader accepts the JSON texts, with the values they are texts of, and no others.
-/

namespace LinearKernels

namespace Json

variable {α : Type} {text rest us vs ts ds fs : List Char}

/-- Whatever the reader takes off a text is written as `P` says. -/
def Sound (reader : List Char → Option (α × List Char)) (P : α → List Char → Prop) : Prop :=
  ∀ text x rest, reader text = some (x, rest) → ∃ ts, text = ts ++ rest ∧ P x ts

/-! ### Numbers -/

theorem digits?_sound : Sound digits? fun ds ts => Digits ds ∧ ts = ds := by
  intro text ds rest h
  unfold digits? at h
  split at h
  · cases h
  · next hempty =>
    obtain ⟨rfl, rfl⟩ := Prod.mk.inj (Option.some.inj h)
    refine ⟨_, List.takeWhile_append_dropWhile.symm, ⟨?_, ?_⟩, rfl⟩
    · simpa using hempty
    · exact List.all_eq_true.mp (List.all_takeWhile ..)

theorem digits?_append (hds : Digits ds) (hrest : ∀ c ∈ rest.head?, c.isDigit = false) :
    digits? (ds ++ rest) = some (ds, rest) := by
  obtain ⟨htake, hdrop⟩ := takeWhile_dropWhile_append hds.2 hrest
  unfold digits?
  rw [htake, hdrop, if_neg (by simpa using hds.1)]

theorem fraction?_sound : Sound fraction? Fraction := by
  intro text fs rest h
  unfold fraction? at h
  split at h
  · obtain ⟨ts, rfl, hds, rfl⟩ := digits?_sound _ _ _ h
    exact ⟨'.' :: ts, rfl, .some hds⟩
  · obtain ⟨rfl, rfl⟩ := Prod.mk.inj (Option.some.inj h)
    exact ⟨[], rfl, .none⟩

theorem fraction?_append (h : Fraction fs us)
    (hrest : ∀ c ∈ rest.head?, c.isDigit = false ∧ c ≠ '.') :
    fraction? (us ++ rest) = some (fs, rest) := by
  cases h with
  | none =>
    rw [List.nil_append]
    unfold fraction?
    split
    · next rest => exact absurd rfl (hrest '.' rfl).2
    · rfl
  | some hds => exact digits?_append hds fun c hc => (hrest c hc).1

theorem exponent?_sound : Sound exponent? Exponent := by
  intro text x rest h
  unfold exponent? at h
  split at h
  · obtain ⟨rfl, rfl⟩ := Prod.mk.inj (Option.some.inj h)
    exact ⟨[], rfl, .none⟩
  · next e text =>
    split at h
    · next he =>
      split at h
      all_goals
        obtain ⟨⟨ds, rest'⟩, hdigits, heq⟩ := Option.map_eq_some_iff.mp h
        obtain ⟨rfl, rfl⟩ := Prod.mk.inj heq
        obtain ⟨ts, rfl, hds, rfl⟩ := digits?_sound _ _ _ hdigits
      · exact ⟨e :: '+' :: ts, rfl, .plus he hds⟩
      · exact ⟨e :: '-' :: ts, rfl, .minus he hds⟩
      · exact ⟨e :: ts, rfl, .plain he hds⟩
    · obtain ⟨rfl, rfl⟩ := Prod.mk.inj (Option.some.inj h)
      exact ⟨[], rfl, .none⟩

theorem Digits.exists_cons (h : Digits ds) : ∃ c more, ds = c :: more ∧ c.isDigit = true := by
  obtain ⟨c, more, rfl⟩ := List.exists_cons_of_ne_nil h.1
  exact ⟨c, more, rfl, h.2 c List.mem_cons_self⟩

theorem exponent?_append {x : Int} (h : Exponent x us)
    (hrest : ∀ c ∈ rest.head?, c.isDigit = false ∧ c ≠ 'e' ∧ c ≠ 'E') :
    exponent? (us ++ rest) = some (x, rest) := by
  have hdigits : ∀ {ds}, Digits ds → digits? (ds ++ rest) = some (ds, rest) := fun hds =>
    digits?_append hds fun c hc => (hrest c hc).1
  cases h with
  | none =>
    cases rest with
    | nil => rfl
    | cons c rest =>
      have hc := hrest c rfl
      simp [exponent?, hc.2]
  | plain he hds =>
    obtain ⟨c, more, rfl, hc⟩ := hds.exists_cons
    simp only [exponent?, List.cons_append, if_pos he]
    split
    · next heq =>
      obtain ⟨rfl, -⟩ := List.cons.inj heq
      simp at hc
    · next heq =>
      obtain ⟨rfl, -⟩ := List.cons.inj heq
      simp at hc
    · rw [← List.cons_append, hdigits hds]
      rfl
  | plus he hds =>
    simp only [exponent?, List.cons_append, if_pos he, hdigits hds]
    rfl
  | minus he hds =>
    simp only [exponent?, List.cons_append, if_pos he, hdigits hds]
    rfl

theorem unsigned?_sound : Sound unsigned? fun r ts => Unsigned r.1 r.2 ts := by
  rintro text ⟨m, x⟩ rest h
  obtain ⟨⟨ds, text₁⟩, hdigits, h⟩ := Option.bind_eq_some_iff.mp h
  obtain ⟨ts, rfl, hds, rfl⟩ := digits?_sound _ _ _ hdigits
  dsimp only at h
  split at h
  · cases h
  · next hzero =>
    obtain ⟨⟨fs, text₂⟩, hfraction, hmap⟩ := Option.bind_eq_some_iff.mp h
    obtain ⟨us, rfl, hus⟩ := fraction?_sound _ _ _ hfraction
    obtain ⟨⟨y, text₃⟩, hexponent, heq⟩ := Option.map_eq_some_iff.mp hmap
    obtain ⟨vs, rfl, hvs⟩ := exponent?_sound _ _ _ hexponent
    obtain ⟨hvalue, rfl⟩ := Prod.mk.inj heq
    obtain ⟨rfl, rfl⟩ := Prod.mk.inj hvalue
    have hinteger : IntegerDigits ts :=
      ⟨hds, fun hhead => Decidable.not_not.mp fun hne => hzero ⟨hhead, hne⟩⟩
    exact ⟨ts ++ (us ++ vs), by simp, .mk hinteger hus hvs⟩

/-- Nothing that makes a number longer. -/
def EndsNumber (rest : List Char) : Prop :=
  ∀ c ∈ rest.head?, c.isDigit = false ∧ c ≠ '.' ∧ c ≠ 'e' ∧ c ≠ 'E'

theorem unsigned?_append {m : Nat} {x : Int} (h : Unsigned m x ts) (hrest : EndsNumber rest) :
    unsigned? (ts ++ rest) = some ((m, x), rest) := by
  obtain @⟨ds, fs, us, vs, x, hds, hus, hvs⟩ := h
  have hexponent := exponent?_append hvs fun c hc => ⟨(hrest c hc).1, (hrest c hc).2.2⟩
  have hpower : ∀ c ∈ (vs ++ rest).head?, c.isDigit = false ∧ c ≠ '.' := by
    intro c hc
    cases hvs with
    | none => exact ⟨(hrest c hc).1, (hrest c hc).2.1⟩
    | plain he | plus he | minus he =>
      obtain rfl := Option.some.inj hc
      rcases he with rfl | rfl <;> decide
  have hfraction := fraction?_append hus hpower
  have hpart : ∀ c ∈ (us ++ (vs ++ rest)).head?, c.isDigit = false := by
    intro c hc
    cases hus with
    | none => exact (hpower c hc).1
    | some =>
      obtain rfl := Option.some.inj hc
      decide
  have hdigits := digits?_append hds.1 hpart
  have hzero : ¬ (ds.head? = some '0' ∧ ds ≠ ['0']) := fun hboth => hboth.2 (hds.2 hboth.1)
  rw [List.append_assoc, List.append_assoc, unsigned?, hdigits]
  simp only [Option.bind_some, if_neg hzero, hfraction, hexponent, Option.map_some]

theorem Unsigned.exists_cons {m : Nat} {x : Int} (h : Unsigned m x ts) :
    ∃ c more, ts = c :: more ∧ c.isDigit = true := by
  obtain @⟨ds, fs, us, vs, x, hds, -, -⟩ := h
  obtain ⟨c, more, rfl, hc⟩ := hds.1.exists_cons
  exact ⟨c, _, List.cons_append, hc⟩

/-! ### Strings -/

theorem character?_eq_some_iff {n : Nat} {x : Char} : character? n = some x ↔ n = x.toNat := by
  unfold character?
  constructor
  · intro h
    split at h
    · next hvalid =>
      obtain rfl := Option.some.inj h
      rw [Char.ofNat, dif_pos hvalid]
      rfl
    · cases h
  · rintro rfl
    have hvalid : x.toNat.isValidChar := x.valid
    rw [if_pos hvalid, Char.ofNat_toNat]

theorem Letter.exists_cons {x : Char} (h : Letter x us) : ∃ c more, us = c :: more ∧ c ≠ '"' := by
  cases h with
  | plain _ hquote _ => exact ⟨x, [], rfl, hquote⟩
  | short | unit | pair => exact ⟨'\\', _, rfl, by decide⟩

theorem unicode?_sound {n : Nat} {x : Char} (h : unicode? n text = some (x, rest)) :
    (text = rest ∧ n = x.toNat) ∨ ∃ a b c d low, text = '\\' :: 'u' :: a :: b :: c :: d :: rest ∧
      codeUnit? a b c d = some low ∧ isHighSurrogate n = true ∧ isLowSurrogate low = true ∧
        x.toNat = joinSurrogates n low := by
  unfold unicode? at h
  split at h
  · next hhigh =>
    split at h
    · next a b c d rest' =>
      obtain ⟨low, hunit, h⟩ := Option.bind_eq_some_iff.mp h
      split at h
      · next hlow =>
        obtain ⟨y, hy, heq⟩ := Option.map_eq_some_iff.mp h
        obtain ⟨rfl, rfl⟩ := Prod.mk.inj heq
        exact .inr ⟨a, b, c, d, low, rfl, hunit, hhigh, hlow, (character?_eq_some_iff.mp hy).symm⟩
      · cases h
    · cases h
  · obtain ⟨y, hy, heq⟩ := Option.map_eq_some_iff.mp h
    obtain ⟨rfl, rfl⟩ := Prod.mk.inj heq
    exact .inl ⟨rfl, character?_eq_some_iff.mp hy⟩

theorem letter?_sound : Sound letter? Letter := by
  intro text x rest h
  unfold letter? at h
  split at h
  · next a b c d rest' =>
    obtain ⟨n, hunit, h⟩ := Option.bind_eq_some_iff.mp h
    obtain ⟨rfl, rfl⟩ | ⟨a', b', c', d', low, rfl, hunit', hhigh, hlow, hx⟩ := unicode?_sound h
    · exact ⟨['\\', 'u', a, b, c, d], rfl, .unit hunit⟩
    · exact ⟨['\\', 'u', a, b, c, d, '\\', 'u', a', b', c', d'], rfl,
        .pair hunit hunit' hhigh hlow hx⟩
  · next e rest' _ =>
    obtain ⟨y, hy, heq⟩ := Option.map_eq_some_iff.mp h
    obtain ⟨rfl, rfl⟩ := Prod.mk.inj heq
    exact ⟨['\\', e], rfl, .short hy⟩
  · next x rest' _ _ =>
    split at h
    · next hplain =>
      obtain ⟨rfl, rfl⟩ := Prod.mk.inj (Option.some.inj h)
      exact ⟨[x], rfl, .plain hplain.1 hplain.2.1 hplain.2.2⟩
    · cases h
  · cases h

/-- A code unit of a character is no surrogate. -/
theorem not_isHighSurrogate (x : Char) : isHighSurrogate x.toNat = false := by
  have hvalid : x.toNat.isValidChar := x.valid
  unfold isHighSurrogate
  unfold Nat.isValidChar at hvalid
  simp only [Bool.and_eq_false_iff, decide_eq_false_iff_not]
  omega

theorem letter?_append {x : Char} (h : Letter x us) : letter? (us ++ rest) = some (x, rest) := by
  cases h with
  | plain hlow hquote hback =>
    simp only [List.singleton_append]
    unfold letter?
    split
    · next heq => exact absurd (List.cons.inj heq).1 hback
    · next heq => exact absurd (List.cons.inj heq).1 hback
    · next heq =>
      obtain ⟨rfl, rfl⟩ := List.cons.inj heq
      rw [if_pos ⟨hlow, hquote, hback⟩]
    · next heq => cases heq
  | @short e hshort =>
    simp only [List.cons_append, List.nil_append]
    unfold letter?
    split
    · next heq =>
      obtain ⟨rfl, -⟩ := List.cons.inj (List.cons.inj heq).2
      simp [shortEscape?] at hshort
    · next heq =>
      obtain ⟨rfl, rfl⟩ := List.cons.inj (List.cons.inj heq).2
      rw [hshort]
      rfl
    · next hne heq =>
      obtain ⟨rfl, rfl⟩ := List.cons.inj heq
      exact absurd rfl (hne _ _ rfl)
    · next heq => cases heq
  | unit hunit =>
    simp only [List.cons_append, List.nil_append, letter?,
      hunit, Option.bind_some, unicode?, not_isHighSurrogate, Bool.false_eq_true, if_false,
      character?_eq_some_iff.mpr rfl, Option.map_some]
  | pair hunit hunit' hhigh hlow hx =>
    simp only [List.cons_append, List.nil_append, letter?, hunit, hunit', Option.bind_some,
      unicode?, hhigh, hlow, if_true, character?_eq_some_iff.mpr hx.symm, Option.map_some]

theorem letters?_sound (bound : Nat) :
    Sound (letters? bound) fun xs ts => ∃ us, ts = us ++ ['"'] ∧ Letters xs us := by
  induction bound with
  | zero => intro _ _ _ h; cases h
  | succ bound ih =>
    intro text xs rest h
    rw [letters?] at h
    split at h
    · next hquote =>
      obtain ⟨rfl, rfl⟩ := Prod.mk.inj (Option.some.inj h)
      obtain ⟨rest', rfl⟩ := List.head?_eq_some_iff.mp hquote
      exact ⟨['"'], rfl, [], rfl, .nil⟩
    · obtain ⟨⟨x, text'⟩, hletter, hmap⟩ := Option.bind_eq_some_iff.mp h
      obtain ⟨⟨more, rest'⟩, hmore, heq⟩ := Option.map_eq_some_iff.mp hmap
      obtain ⟨rfl, rfl⟩ := Prod.mk.inj heq
      obtain ⟨us, rfl, hx⟩ := letter?_sound _ _ _ hletter
      obtain ⟨_, rfl, vs, rfl, hxs⟩ := ih _ _ _ hmore
      exact ⟨us ++ vs ++ ['"'], by simp, us ++ vs, rfl, .cons hx hxs⟩

theorem letters?_append {xs : List Char} {bound : Nat} (h : Letters xs us)
    (hbound : us.length < bound) :
    letters? bound (us ++ '"' :: rest) = some (xs, rest) := by
  induction h generalizing bound with
  | nil =>
    obtain ⟨bound, rfl⟩ := Nat.exists_eq_add_one_of_ne_zero (Nat.ne_of_gt hbound)
    rfl
  | @cons x xs us vs hx hxs ih =>
    obtain ⟨bound, rfl⟩ :=
      Nat.exists_eq_add_one_of_ne_zero (Nat.ne_of_gt (Nat.zero_lt_of_lt hbound))
    obtain ⟨c, more, rfl, hc⟩ := hx.exists_cons
    have hvs : vs.length < bound := by
      simp only [List.cons_append, List.length_cons, List.length_append] at hbound
      omega
    rw [letters?, List.append_assoc, if_neg (by simpa using hc), letter?_append hx]
    simp only [Option.bind_some, ih hvs, Option.map_some]

/-! ### What the reader takes is written by the grammar -/

def Blanks (ws : List Char) : Prop :=
  ∀ c ∈ ws, isBlank c = true

theorem isBlank_iff {c : Char} : isBlank c = true ↔ c = ' ' ∨ c = '\t' ∨ c = '\n' ∨ c = '\r' := by
  simp only [isBlank, Bool.or_eq_true, decide_eq_true_eq, or_assoc]

theorem exists_blanks (text : List Char) : ∃ ws, text = ws ++ skip text ∧ Blanks ws :=
  ⟨text.takeWhile isBlank, List.takeWhile_append_dropWhile.symm,
    List.all_eq_true.mp List.all_takeWhile⟩

theorem skip_append_cons {c : Char} (hus : Blanks us) (hc : isBlank c = false) :
    skip (us ++ c :: rest) = c :: rest := by
  refine (takeWhile_dropWhile_append hus fun x hx => ?_).2
  obtain rfl := Option.some.inj hx
  exact hc

/-- Entries with commas between them. -/
inductive Listed (P : α → List Char → Prop) : List α → List Char → Prop
  | last {x : α} {ts : List Char} : P x ts → Listed P [x] ts
  | cons {x : α} {xs : List α} {ts us : List Char} :
      P x ts → Listed P xs us → Listed P (x :: xs) (ts ++ ',' :: us)

/-- A key and a value with a colon between them. -/
def MemberText (m : String × Json) (ts : List Char) : Prop :=
  ∃ ks us, ts = ks ++ ':' :: us ∧ Written (.padded (.string m.1)) ks ∧ Written (.padded m.2) us

theorem Listed.items {values : List Json} (h : Listed (fun v => Written (.padded v)) values ts) :
    Written (.items values) ts := by
  induction h with
  | last hv => exact .lastItem hv
  | cons hv _ ih => exact .item hv ih

theorem Listed.members {ms : List (String × Json)} (h : Listed MemberText ms ts) :
    Written (.members ms) ts := by
  induction h with
  | last hm =>
    obtain ⟨ks, us, rfl, hkey, hvalue⟩ := hm
    exact .lastMember hkey hvalue
  | cons hm _ ih =>
    obtain ⟨ks, us, rfl, hkey, hvalue⟩ := hm
    rw [List.append_assoc, List.cons_append]
    exact .member hkey hvalue ih

section Sound

variable {entry : List Char → Option (Json × List Char)} {reader : List Char →
  Option (α × List Char)} {P : α → List Char → Prop} {close : Char}

theorem padded?_sound (h : Sound entry fun v => Written (.value v)) :
    Sound (padded? entry) fun v => Written (.padded v) := by
  intro text v rest hread
  obtain ⟨⟨v, text'⟩, hentry, heq⟩ := Option.map_eq_some_iff.mp hread
  obtain ⟨rfl, rfl⟩ := Prod.mk.inj heq
  obtain ⟨us, hus, hblank⟩ := exists_blanks text
  obtain ⟨ws, hws, hblank'⟩ := exists_blanks text'
  obtain ⟨ts, hskip, hv⟩ := h _ _ _ hentry
  refine ⟨us ++ (ts ++ ws), ?_, .padded hblank hblank' hv⟩
  calc text = us ++ (ts ++ text') := by rw [← hskip, ← hus]
    _ = us ++ (ts ++ ws) ++ skip text' := by rw [List.append_assoc, List.append_assoc, ← hws]

theorem member?_sound (h : Sound entry fun v => Written (.padded v)) :
    Sound (member? entry) MemberText := by
  intro text m rest hread
  obtain ⟨⟨key, text'⟩, hkey, hread⟩ := Option.bind_eq_some_iff.mp hread
  dsimp only at hread
  split at hread
  · next name text' =>
    obtain ⟨⟨v, rest'⟩, hvalue, heq⟩ := Option.map_eq_some_iff.mp hread
    obtain ⟨rfl, rfl⟩ := Prod.mk.inj heq
    obtain ⟨ks, rfl, hks⟩ := h _ _ _ hkey
    obtain ⟨us, rfl, hus⟩ := h _ _ _ hvalue
    exact ⟨ks ++ ':' :: us, by simp, ks, us, rfl, hks, hus⟩
  · cases hread

theorem entries?_sound (h : Sound reader P) (bound : Nat) :
    Sound (entries? reader close bound) fun xs ts => ∃ us, ts = us ++ [close] ∧
    Listed P xs us := by
  induction bound with
  | zero => intro _ _ _ hread; cases hread
  | succ bound ih =>
    intro text xs rest hread
    obtain ⟨⟨x, text'⟩, hfirst, hnext⟩ := Option.bind_eq_some_iff.mp hread
    obtain ⟨ts, rfl, hx⟩ := h _ _ _ hfirst
    dsimp only at hnext
    split at hnext
    · cases hnext
    · next c text' =>
      split at hnext
      · next hcomma =>
        obtain ⟨⟨more, rest'⟩, hmore, heq⟩ := Option.map_eq_some_iff.mp hnext
        obtain ⟨rfl, rfl⟩ := Prod.mk.inj heq
        obtain ⟨_, rfl, us, rfl, hxs⟩ := ih _ _ _ hmore
        exact ⟨ts ++ ',' :: us ++ [close], by simp [hcomma], ts ++ ',' :: us, rfl, .cons hx hxs⟩
      · split at hnext
        · next hclose =>
          obtain ⟨rfl, rfl⟩ := Prod.mk.inj (Option.some.inj hnext)
          exact ⟨ts ++ [close], by simp [hclose], ts, rfl, .last hx⟩
        · cases hnext

theorem between?_sound (h : Sound reader P) : Sound (between? reader close) fun xs ts =>
    ∃ us, ts = us ++ [close] ∧ (xs = [] ∧ Blanks us ∨ Listed P xs us) := by
  intro text xs rest hread
  unfold between? at hread
  split at hread
  · next hclose =>
    obtain ⟨rfl, rfl⟩ := Prod.mk.inj (Option.some.inj hread)
    obtain ⟨rest', hskip⟩ := List.head?_eq_some_iff.mp hclose
    obtain ⟨ws, htext, hblank⟩ := exists_blanks text
    refine ⟨ws ++ [close], ?_, ws, rfl, .inl ⟨rfl, hblank⟩⟩
    rw [hskip] at htext ⊢
    simpa using htext
  · obtain ⟨_, htext, us, rfl, hxs⟩ := entries?_sound h _ _ _ _ hread
    exact ⟨us ++ [close], htext, us, rfl, .inr hxs⟩

end Sound

theorem value?_sound (depth : Nat) : Sound (value? depth) fun v => Written (.value v) := by
  induction depth with
  | zero => intro _ _ _ h; cases h
  | succ depth ih =>
    intro text v rest h
    have hpadded := padded?_sound ih
    unfold value? at h
    split at h
    case h_1 | h_2 | h_3 =>
      obtain ⟨rfl, rfl⟩ := Prod.mk.inj (Option.some.inj h)
      exact ⟨_, rfl, by constructor⟩
    -- The other readers hand on what a part has read.
    all_goals
      obtain ⟨⟨x, rest'⟩, hread, heq⟩ := Option.map_eq_some_iff.mp h
      obtain ⟨rfl, rfl⟩ := Prod.mk.inj heq
    · obtain ⟨_, rfl, us, rfl, hxs⟩ := letters?_sound _ _ _ _ hread
      exact ⟨_, rfl, .string hxs⟩
    · obtain ⟨_, rfl, us, rfl, ⟨rfl, hblank⟩ | hitems⟩ := between?_sound hpadded _ _ _ hread
      · exact ⟨_, rfl, .noItems hblank⟩
      · exact ⟨_, rfl, .array hitems.items⟩
    · obtain ⟨_, rfl, us, rfl, ⟨rfl, hblank⟩ | hmembers⟩ :=
        between?_sound (member?_sound hpadded) _ _ _ hread
      · exact ⟨_, rfl, .noMembers hblank⟩
      · exact ⟨_, rfl, .object hmembers.members⟩
    · obtain ⟨ts, rfl, hnumber⟩ := unsigned?_sound _ _ _ hread
      exact ⟨_, rfl, .negative hnumber⟩
    · obtain ⟨ts, rfl, hnumber⟩ := unsigned?_sound _ _ _ hread
      exact ⟨_, rfl, .positive hnumber⟩

/-! ### What the grammar writes is read back -/

/-- The first character of a value. -/
def Starts (c : Char) : Prop :=
  isBlank c = false ∧ c ≠ ']' ∧ c ≠ '\x7d'

/-- What may follow a value with the blanks around it. -/
def EndsPadded (rest : List Char) : Prop :=
  ∀ c ∈ rest.head?, c = ',' ∨ c = ':' ∨ c = ']' ∨ c = '\x7d'

/-- What may follow a value. -/
def EndsValue (rest : List Char) : Prop :=
  ∀ c ∈ rest.head?, isBlank c = true ∨ c = ',' ∨ c = ':' ∨ c = ']' ∨ c = '\x7d'

theorem starts_of_isDigit {c : Char} (h : c.isDigit = true) : Starts c := by
  refine ⟨Bool.eq_false_iff.mpr fun hblank => ?_, ?_, ?_⟩
  · rcases isBlank_iff.mp hblank with rfl | rfl | rfl | rfl <;> simp at h
  · rintro rfl
    simp at h
  · rintro rfl
    simp at h

theorem EndsValue.endsNumber (h : EndsValue rest) : EndsNumber rest := by
  intro c hc
  rcases h c hc with hblank | rfl | rfl | rfl | rfl
  · rcases isBlank_iff.mp hblank with rfl | rfl | rfl | rfl <;> decide
  all_goals decide

theorem EndsPadded.skip_append (h : EndsPadded rest) (hws : Blanks us) :
    skip (us ++ rest) = rest := by
  refine (takeWhile_dropWhile_append hws fun c hc => ?_).2
  rcases h c hc with rfl | rfl | rfl | rfl <;> decide

theorem EndsPadded.endsValue (h : EndsPadded rest) (hws : Blanks us) :
    EndsValue (us ++ rest) := by
  intro c hc
  cases us with
  | nil => exact .inr (h c hc)
  | cons w us =>
    obtain rfl := Option.some.inj hc
    exact .inl (hws w List.mem_cons_self)

theorem Written.value_starts {v : Json} (h : Written (.value v) ts) :
    ∃ c more, ts = c :: more ∧ Starts c := by
  cases h with
  | positive h =>
    obtain ⟨c, more, rfl, hc⟩ := h.exists_cons
    exact ⟨c, more, rfl, starts_of_isDigit hc⟩
  | null | true | false | negative | string | noItems | array | noMembers | object =>
    exact ⟨_, _, rfl, by decide, by decide, by decide⟩

theorem value?_of_isDigit {c : Char} (h : c.isDigit = true) (depth : Nat) (text : List Char) :
    value? (depth + 1) (c :: text) = (unsigned? (c :: text)).map fun r =>
      (.number r.1.1 r.1.2, r.2) := by
  rw [value?]
  all_goals
    intro _ heq
    obtain ⟨rfl, -⟩ := List.cons.inj heq
    simp at h

/-- Entries begin with the blanks in front of the first of them. -/
def Begins (ts : List Char) : Prop :=
  ∃ ws c more, ts = ws ++ c :: more ∧ Blanks ws ∧ Starts c

theorem Begins.append (h : Begins ts) (us : List Char) : Begins (ts ++ us) := by
  obtain ⟨ws, c, more, rfl, hws, hc⟩ := h
  exact ⟨ws, c, more ++ us, by simp, hws, hc⟩

theorem Written.padded_begins {v : Json} (h : Written (.padded v) ts) : Begins ts := by
  obtain _ | _ | _ | _ | _ | _ | _ | _ | _ | _ | @⟨v, us, ts, ws, hus, hws, hv⟩ := h
  obtain ⟨c, more, rfl, hc⟩ := hv.value_starts
  exact ⟨us, c, more ++ ws, rfl, hus, hc⟩

theorem Written.items_begins {values : List Json}
    (h : Written (.items values) ts) : Begins ts := by
  cases h with
  | lastItem h => exact h.padded_begins
  | item h => exact h.padded_begins.append _

theorem Written.members_begins {ms : List (String × Json)}
    (h : Written (.members ms) ts) : Begins ts := by
  cases h with
  | lastMember h => exact h.padded_begins.append _
  | member h => exact h.padded_begins.append _

theorem between?_nil {reader : List Char → Option (α × List Char)}
    {close : Char} (hws : Blanks us) (hclose : isBlank close = false) :
    between? reader close (us ++ close :: rest) = some ([], rest) := by
  rw [between?, skip_append_cons hws hclose]
  exact if_pos rfl

theorem between?_eq_entries? {reader : List Char → Option (α × List Char)}
    {close : Char} (h : Begins text) (hclose : close = ']' ∨ close = '\x7d') :
    between? reader close text = entries? reader close text.length text := by
  obtain ⟨ws, c, more, rfl, hws, hblank, hbracket, hbrace⟩ := h
  rw [between?, skip_append_cons hws hblank, if_neg]
  rintro hhead
  obtain rfl := Option.some.inj hhead
  exact hclose.elim hbracket hbrace

section Entries

variable {reader : List Char → Option (α × List Char)} {close : Char} {x : α}
  {xs : List α} {bound : Nat}

theorem entries?_last (hx : reader text = some (x, close :: rest)) (hclose : close ≠ ',') :
    entries? reader close (bound + 1) text = some ([x], rest) := by
  rw [entries?, hx]
  simp only [Option.bind_some, if_neg hclose, if_true]

theorem entries?_cons (hx : reader text = some (x, ',' :: us))
    (hxs : entries? reader close bound us = some (xs, rest)) :
    entries? reader close (bound + 1) text = some (x :: xs, rest) := by
  rw [entries?, hx]
  simp only [Option.bind_some, if_true, hxs, Option.map_some]

end Entries

theorem member?_eq {entry : List Char → Option (Json × List Char)} {key : String} {v : Json}
    (hkey : entry text = some (.string key, ':' :: us)) (hvalue : entry us = some (v, rest)) :
    member? entry text = some ((key, v), rest) := by
  rw [member?, hkey]
  simp only [Option.bind_some, hvalue, Option.map_some]

/-- The reader takes the text off the front of others that may follow it. The bounds are on the
nesting of values, which each begin with a character of their own, and on the number of
entries. -/
def Part.ReadsBack : Part → List Char → Prop
  | .value v, ts =>
    ∀ depth rest, ts.length ≤ depth → EndsValue rest → value? depth (ts ++ rest) = some (v, rest)
  | .padded v, ts => ∀ depth rest, ts.length ≤ depth → EndsPadded rest →
      padded? (value? depth) (ts ++ rest) = some (v, rest)
  | .items vs, ts => ∀ depth bound rest, ts.length ≤ depth → ts.length < bound →
      entries? (padded? (value? depth)) ']' bound (ts ++ ']' :: rest) = some (vs, rest)
  | .members ms, ts => ∀ depth bound rest, ts.length ≤ depth → ts.length < bound →
      entries? (member? (padded? (value? depth))) '\x7d' bound (ts ++ '\x7d' :: rest) =
        some (ms, rest)

/-- Only a text without characters is within the bound zero. -/
theorem exists_bound {c : Char} {n : Nat} (h : (c :: ts).length ≤ n) :
    ∃ k, n = k + 1 ∧ ts.length ≤ k := by
  obtain ⟨k, rfl⟩ :=
    Nat.exists_eq_add_one_of_ne_zero (Nat.ne_of_gt (Nat.lt_of_lt_of_le (Nat.succ_pos _) h))
  exact ⟨k, rfl, Nat.le_of_succ_le_succ h⟩

theorem Written.readsBack {part : Part} (h : Written part ts) : part.ReadsBack ts := by
  -- The bounds go down with the text: brackets take the depth of a value, commas the bound.
  induction h with
  | null | true | false =>
    intro depth rest hdepth _
    obtain ⟨depth, rfl, -⟩ := exists_bound hdepth
    rfl
  | positive hnumber =>
    intro depth rest hdepth hrest
    obtain ⟨c, more, rfl, hc⟩ := hnumber.exists_cons
    obtain ⟨depth, rfl, -⟩ := exists_bound hdepth
    rw [List.cons_append, value?_of_isDigit hc, ← List.cons_append,
      unsigned?_append hnumber hrest.endsNumber]
    rfl
  | negative hnumber =>
    intro depth rest hdepth hrest
    obtain ⟨depth, rfl, -⟩ := exists_bound hdepth
    rw [List.cons_append, value?, unsigned?_append hnumber hrest.endsNumber]
    rfl
  | @string xs ts hxs =>
    intro depth rest hdepth _
    obtain ⟨depth, rfl, -⟩ := exists_bound hdepth
    have hletters : letters? (ts ++ '"' :: rest).length (ts ++ '"' :: rest) = some (xs, rest) :=
      letters?_append hxs (by simp)
    rw [List.cons_append, List.append_assoc, List.singleton_append, value?, hletters]
    rfl
  | noItems hws =>
    intro depth rest hdepth _
    obtain ⟨depth, rfl, -⟩ := exists_bound hdepth
    rw [List.cons_append, List.append_assoc, List.singleton_append, value?, between?_nil hws rfl]
    rfl
  | noMembers hws =>
    intro depth rest hdepth _
    obtain ⟨depth, rfl, -⟩ := exists_bound hdepth
    rw [List.cons_append, List.append_assoc, List.singleton_append, value?, between?_nil hws rfl]
    rfl
  | @array values ts hitems ih =>
    intro depth rest hdepth _
    obtain ⟨depth, rfl, hle⟩ := exists_bound hdepth
    rw [List.length_append] at hle
    rw [List.cons_append, List.append_assoc, List.singleton_append, value?,
      between?_eq_entries? (hitems.items_begins.append _) (.inl rfl),
      ih depth _ rest (by omega) (by simp)]
    rfl
  | @object ms ts hmembers ih =>
    intro depth rest hdepth _
    obtain ⟨depth, rfl, hle⟩ := exists_bound hdepth
    rw [List.length_append] at hle
    rw [List.cons_append, List.append_assoc, List.singleton_append, value?,
      between?_eq_entries? (hmembers.members_begins.append _) (.inr rfl),
      ih depth _ rest (by omega) (by simp)]
    rfl
  | @padded v us ts ws hus hws hv ih =>
    intro depth rest hdepth hrest
    simp only [List.length_append] at hdepth
    obtain ⟨c, more, rfl, hc, -⟩ := hv.value_starts
    have hskip : skip (us ++ (c :: more ++ (ws ++ rest))) = c :: more ++ (ws ++ rest) :=
      skip_append_cons hus hc
    rw [List.append_assoc, List.append_assoc, padded?, hskip,
      ih depth _ (by omega) (hrest.endsValue hws)]
    simp only [Option.map_some, hrest.skip_append hws]
  | lastItem _ ih =>
    intro depth bound rest hdepth hbound
    obtain ⟨bound, rfl⟩ :=
      Nat.exists_eq_add_one_of_ne_zero (Nat.ne_of_gt (Nat.zero_lt_of_lt hbound))
    exact entries?_last (ih depth _ hdepth (by simp [EndsPadded])) (by decide)
  | item _ _ ih ihs =>
    intro depth bound rest hdepth hbound
    obtain ⟨bound, rfl⟩ :=
      Nat.exists_eq_add_one_of_ne_zero (Nat.ne_of_gt (Nat.zero_lt_of_lt hbound))
    simp only [List.length_append, List.length_cons] at hdepth hbound
    rw [List.append_assoc, List.cons_append]
    exact entries?_cons (ih depth _ (by omega) (by simp [EndsPadded]))
      (ihs depth bound rest (by omega) (by omega))
  | lastMember _ _ ihkey ih =>
    intro depth bound rest hdepth hbound
    obtain ⟨bound, rfl⟩ :=
      Nat.exists_eq_add_one_of_ne_zero (Nat.ne_of_gt (Nat.zero_lt_of_lt hbound))
    simp only [List.length_append, List.length_cons] at hdepth hbound
    rw [List.append_assoc, List.cons_append]
    exact entries?_last (member?_eq (ihkey depth _ (by omega) (by simp [EndsPadded]))
      (ih depth _ (by omega) (by simp [EndsPadded]))) (by decide)
  | member _ _ _ ihkey ih ihs =>
    intro depth bound rest hdepth hbound
    obtain ⟨bound, rfl⟩ :=
      Nat.exists_eq_add_one_of_ne_zero (Nat.ne_of_gt (Nat.zero_lt_of_lt hbound))
    simp only [List.length_append, List.length_cons] at hdepth hbound
    rw [List.append_assoc, List.cons_append, List.append_assoc, List.cons_append]
    exact entries?_cons (member?_eq (ihkey depth _ (by omega) (by simp [EndsPadded]))
      (ih depth _ (by omega) (by simp [EndsPadded]))) (ihs depth bound rest (by omega) (by omega))

/-- The reader accepts the JSON texts and no others, each with the value it is a text of. -/
theorem read_eq_some_iff {v : Json} {text : String} : read text = some v ↔ TextOf v text := by
  constructor
  · intro h
    unfold read at h
    split at h
    · next w hread =>
      obtain rfl := Option.some.inj h
      obtain ⟨ts, htext, hw⟩ := padded?_sound (value?_sound _) _ _ _ hread
      rw [List.append_nil] at htext
      rwa [TextOf, htext]
    · cases h
  · intro h
    have hread := h.readsBack text.toList.length [] (Nat.le_refl _) (by simp [EndsPadded])
    rw [List.append_nil] at hread
    rw [read, hread]

end Json

end LinearKernels
