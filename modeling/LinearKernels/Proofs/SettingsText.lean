import LinearKernels.SettingsFile
import LinearKernels.Proofs.Emission
import Mathlib.Data.List.Forall2
import Mathlib.Data.List.TakeWhile

/-!
Settings and the texts that write them. A text gives the settings their values under the
sections they belong to, in any order and as often as it likes, between blank lines, comments
and lines with other keys. Reading it gives the settings with the last values. Whatever text
is read, the settings that come out can be used.
-/

namespace LinearKernels

theorem ne_of_isWordChar {c d : Char} (h : isWordChar c = true)
    (hd : isWordChar d = false) : c ≠ d := by
  rintro rfl
  rw [h] at hd
  cases hd

theorem isWhite_of_visible {c : Char} (h : 0x21 ≤ c.toNat) (h' : c.toNat ≤ 0x7e) :
    isWhite c = false := by
  simp only [isWhite, Bool.or_eq_false_iff, Bool.and_eq_false_iff, decide_eq_false_iff_not]
  omega

theorem isWhite_of_isWordChar {c : Char} (h : isWordChar c = true) : isWhite c = false := by
  have hrange := toNat_range_of_isWordChar h
  exact isWhite_of_visible (by omega) (by omega)

/-- Settings that can be used; all element types and vector widths can. -/
structure Settings.Valid (s : Settings) : Prop where
  nonempty : s.stem ≠ ""
  chars : ∀ c ∈ s.stem.toList, isWordChar c = true
  power : s.localSize.isPowerOfTwo
  small : s.localSize ≤ 1024

namespace SettingsText

/-! ### Texts -/

/-- A value for one of the settings. -/
inductive Setting where
  | stem (text : String)
  | localSize (n : Nat)
  | defaultType (e : ElementType)
  | alignment (a : Alignment)

namespace Setting

def header : Setting → String
  | stem _ | localSize _ => "generator"
  | defaultType _ | alignment _ => "types"

def key : Setting → String
  | stem _ => "prefix"
  | localSize _ => "local_size"
  | defaultType _ => "default"
  | alignment _ => "alignment"

def Valid : Setting → Prop
  | stem text => text ≠ "" ∧ ∀ c ∈ text.toList, isWordChar c = true
  | localSize n => n.isPowerOfTwo ∧ n ≤ 1024
  | defaultType _ | alignment _ => True

end Setting

/-- A text, with quotes or without. -/
def Quoted (text : String) (ts : List Char) : Prop :=
  ts = text.toList ∨ ts = '"' :: (text.toList ++ ['"'])

/-- A number, with a sign or without; it may have leading zeros. -/
def Numeral (n : Nat) (ts : List Char) : Prop :=
  ∃ ds, ds ≠ [] ∧ (∀ c ∈ ds, c.isDigit = true) ∧ decimalValue ds = n ∧ (ts = ds ∨ ts = '+' :: ds)

def Setting.Written : Setting → List Char → Prop
  | stem text, ts => Quoted text ts
  | localSize n, ts => Numeral n ts
  | defaultType e, ts => Quoted e.name ts
  | alignment a, ts => Numeral a.width ts

/-- What a line is for. -/
inductive Content where
  | blank
  | header (name : String)
  | assign (a : Setting)
  | other (key : String)

def Gap (us : List Char) : Prop :=
  ∀ c ∈ us, c = ' ' ∨ c = '\t'

def Comment (cs : List Char) : Prop :=
  cs = [] ∨ ∃ rest, cs = '#' :: rest ∧ '\n' ∉ rest

/-- A character of a section's name. -/
def Visible (c : Char) : Prop :=
  0x21 ≤ c.toNat ∧ c.toNat ≤ 0x7e ∧ c ≠ '#'

/-- How a line is written. Behind a key that is not known, anything may follow. -/
inductive Line : Content → List Char → Prop
  | blank {us cs : List Char} (hus : Gap us) (hcs : Comment cs) : Line .blank (us ++ cs)
  | header {name : String} {us vs ws xs cs : List Char} (hus : Gap us) (hvs : Gap vs)
      (hws : Gap ws) (hxs : Gap xs) (hcs : Comment cs) (hname : ∀ c ∈ name.toList, Visible c) :
      Line (.header name) (us ++ ('[' :: (vs ++ (name.toList ++ ws)) ++ [']'] ++ xs) ++ cs)
  | assign {a : Setting} {us vs ws ts xs cs : List Char} (hus : Gap us) (hvs : Gap vs)
      (hws : Gap ws) (hxs : Gap xs) (hcs : Comment cs) (hts : a.Written ts) :
      Line (.assign a) (us ++ (a.key.toList ++ (vs ++ '=' :: (ws ++ (ts ++ xs)))) ++ cs)
  | other {key : String} {us vs rest : List Char} (hus : Gap us) (hvs : Gap vs) (hkey : key ≠ "")
      (hchars : ∀ c ∈ key.toList, isWordChar c = true) (hrest : '\n' ∉ rest) :
      Line (.other key) (us ++ (key.toList ++ (vs ++ '=' :: rest)))

/-- Under a section header, the assignments that follow are valid ones for their sections, and
the other keys are not known in theirs. -/
def Fits : String → List Content → Prop
  | _, [] => True
  | header, .blank :: contents => Fits header contents
  | _, .header name :: contents => Fits name contents
  | header, .assign a :: contents => (a.header = header ∧ a.Valid) ∧ Fits header contents
  | header, .other key :: contents =>
    (∀ a : Setting, a.header = header → a.key ≠ key) ∧ Fits header contents

/-- The section header behind a line. -/
def Content.under (header : String) : Content → String
  | .header name => name
  | .blank | .assign _ | .other _ => header

theorem Fits.tail {header : String} {content : Content} {contents : List Content}
    (h : Fits header (content :: contents)) : Fits (content.under header) contents := by
  cases content with
  | blank => exact h
  | header name => exact h
  | assign a => exact h.2
  | other key => exact h.2

/-- The last assignment to its key. -/
def Last (a : Setting) (contents : List Content) : Prop :=
  ∃ before later, contents = before ++ .assign a :: later ∧ ∀ b, .assign b ∈ later → b.key ≠ a.key

def assignments (s : Settings) : List Setting :=
  [.stem s.stem, .localSize s.localSize, .defaultType s.defaultType, .alignment s.alignment]

/-- The text writes the settings, all four of them. -/
def Writes (s : Settings) (text : String) : Prop :=
  ∃ contents lines, List.Forall₂ Line contents lines ∧ Fits "" contents ∧
    (∀ a ∈ assignments s, Last a contents) ∧ text.toList = ['\n'].intercalate lines

/-! ### Trimming -/

theorem Gap.isWhite {us : List Char} (h : Gap us) : ∀ c ∈ us, isWhite c = true := by
  intro c hc
  rcases h c hc with rfl | rfl <;> decide

/-- No character of the class at either end. -/
def Trimmed (p : Char → Bool) (ts : List Char) : Prop :=
  (∀ c ∈ ts.head?, p c = false) ∧ ∀ c ∈ ts.getLast?, p c = false

theorem trimmed_of_forall {p : Char → Bool} {ts : List Char}
    (h : ∀ c ∈ ts, p c = false) : Trimmed p ts :=
  ⟨fun c hc => h c (List.mem_of_mem_head? hc), fun c hc => h c (List.mem_of_mem_getLast? hc)⟩

theorem trimBoth_append {p : Char → Bool} {us ts ws : List Char} (hus : ∀ c ∈ us, p c = true)
    (hws : ∀ c ∈ ws, p c = true) (hts : Trimmed p ts) : trimBoth p (us ++ (ts ++ ws)) = ts := by
  cases ts with
  | nil =>
    have hall : ∀ c ∈ us ++ ws, p c = true :=
      fun c hc => (List.mem_append.mp hc).elim (hus c) (hws c)
    have hnil : (us ++ ws).dropWhile p = [] := List.dropWhile_eq_nil_iff.mpr hall
    rw [trimBoth, List.nil_append, hnil]
    rfl
  | cons t ts =>
    have hfront : (us ++ (t :: ts ++ ws)).dropWhile p = t :: ts ++ ws :=
      (takeWhile_dropWhile_append hus (by simpa using hts.1)).2
    have hback : (ws.reverse ++ (t :: ts).reverse).dropWhile p = (t :: ts).reverse :=
      (takeWhile_dropWhile_append (fun c hc => hws c (List.mem_reverse.mp hc))
        fun c hc => hts.2 c (by rwa [List.head?_reverse] at hc)).2
    rw [trimBoth, hfront, List.reverse_append, hback, List.reverse_reverse]

theorem trimBoth_eq_self {p : Char → Bool} {ts : List Char} (hts : Trimmed p ts) :
    trimBoth p ts = ts := by
  have htrim : trimBoth p ([] ++ (ts ++ [])) = ts := trimBoth_append (by simp) (by simp) hts
  rwa [List.nil_append, List.append_nil] at htrim

/-- Drop the characters of a class from the end. -/
def trimEnd (p : Char → Bool) (text : List Char) : List Char :=
  (text.reverse.dropWhile p).reverse

theorem trimEnd_append {p : Char → Bool} {ts ws : List Char} (hws : ∀ c ∈ ws, p c = true)
    (hts : ∀ c ∈ ts.getLast?, p c = false) : trimEnd p (ts ++ ws) = ts := by
  have hdrop : (ws.reverse ++ ts.reverse).dropWhile p = ts.reverse :=
    (takeWhile_dropWhile_append (fun c hc => hws c (List.mem_reverse.mp hc))
      fun c hc => hts c (by rwa [List.head?_reverse] at hc)).2
  rw [trimEnd, List.reverse_append, hdrop, List.reverse_reverse]

theorem trimEnd_append_cons {p : Char → Bool} {c : Char} (hc : p c = false) (us ts : List Char) :
    trimEnd p (us ++ c :: ts) = us ++ c :: trimEnd p ts := by
  have hdrop : (ts.reverse ++ c :: us.reverse).dropWhile p =
      ts.reverse.dropWhile p ++ c :: us.reverse := by
    rw [List.dropWhile_append]
    split
    · next hempty =>
      rw [List.isEmpty_iff.mp hempty, List.dropWhile_cons_of_neg (by simp [hc]), List.nil_append]
    · rfl
  have hreverse : (us ++ c :: ts).reverse = ts.reverse ++ c :: us.reverse := by simp
  rw [trimEnd, hreverse, hdrop]
  simp [trimEnd]

/-! ### Lines -/

theorem Comment.takeWhile_append {us cs : List Char} (h : Comment cs) (hus : '#' ∉ us) :
    (us ++ cs).takeWhile (· ≠ '#') = us := by
  refine (takeWhile_dropWhile_append (fun c hc => ?_) fun c hc => ?_).1
  · exact decide_eq_true (ne_of_mem_of_not_mem hc hus)
  · rcases h with rfl | ⟨rest, rfl, -⟩
    · cases hc
    · obtain rfl := Option.some.inj hc
      decide

theorem comment_dropWhile {rest : List Char} (h : '\n' ∉ rest) :
    Comment (rest.dropWhile (· ≠ '#')) := by
  have hhead := List.head?_dropWhile_not (· ≠ '#') rest
  have hmem : '\n' ∉ rest.dropWhile (· ≠ '#') :=
    fun hmem => h ((List.dropWhile_sublist _).subset hmem)
  cases hdrop : rest.dropWhile (· ≠ '#') with
  | nil => exact .inl rfl
  | cons c cs =>
    rw [hdrop] at hhead hmem
    obtain rfl : c = '#' := by simpa using hhead
    exact .inr ⟨cs, rfl, fun hcs => hmem (List.mem_cons_of_mem _ hcs)⟩

theorem Gap.not_mem {us : List Char} (h : Gap us) {c : Char} (hc : c ≠ ' ' ∧ c ≠ '\t') : c ∉ us :=
  fun hmem => (h c hmem).elim hc.1 hc.2

theorem ofText_blank {us cs : List Char} (hus : Gap us) (hcs : Comment cs) :
    SettingsLine.ofText (us ++ cs) = .blank := by
  have htrim : trim us = [] := by
    rw [trim, trimBoth, List.dropWhile_eq_nil_iff.mpr hus.isWhite]
    rfl
  unfold SettingsLine.ofText
  rw [hcs.takeWhile_append (hus.not_mem (by decide)), htrim]
  rfl

theorem ofText_header {name us vs ws xs cs : List Char} (hus : Gap us) (hvs : Gap vs)
    (hws : Gap ws) (hxs : Gap xs) (hcs : Comment cs) (hname : ∀ c ∈ name, Visible c) :
    SettingsLine.ofText (us ++ ('[' :: (vs ++ (name ++ ws)) ++ [']'] ++ xs) ++ cs) =
      .header (String.ofList name) := by
  have hhash : '#' ∉ us ++ ('[' :: (vs ++ (name ++ ws)) ++ [']'] ++ xs) := by
    have hnot : '#' ∉ name := fun hmem => (hname _ hmem).2.2 rfl
    simp [hus.not_mem, hvs.not_mem, hws.not_mem, hxs.not_mem, hnot]
  have hlast : ('[' :: (vs ++ (name ++ ws)) ++ [']']).getLast? = some ']' := List.getLast?_concat
  have htrim : trim (us ++ ('[' :: (vs ++ (name ++ ws)) ++ [']'] ++ xs)) =
      '[' :: (vs ++ (name ++ ws)) ++ [']'] := by
    refine trimBoth_append hus.isWhite hxs.isWhite ⟨fun c hc => ?_, fun c hc => ?_⟩
    · obtain rfl := Option.some.inj hc
      decide
    · rw [hlast] at hc
      obtain rfl := Option.some.inj hc
      decide
  have hinner : trim ('[' :: (vs ++ (name ++ ws)) ++ [']']).tail.dropLast = name := by
    rw [List.cons_append, List.tail_cons, List.dropLast_concat]
    exact trimBoth_append hvs.isWhite hws.isWhite
      (trimmed_of_forall fun c hc => isWhite_of_visible (hname c hc).1 (hname c hc).2.1)
  unfold SettingsLine.ofText
  rw [hcs.takeWhile_append hhash, htrim]
  simp only [hinner, hlast]
  rfl

theorem ofText_entry {key us vs rest cs : List Char} (hus : Gap us) (hvs : Gap vs)
    (hkey : key ≠ []) (hchars : ∀ c ∈ key, isWordChar c = true) (hrest : '#' ∉ rest)
    (hcs : Comment cs) :
    SettingsLine.ofText (us ++ (key ++ (vs ++ '=' :: rest)) ++ cs) =
      .entry (String.ofList key) (trim (trimEnd isWhite rest)) := by
  obtain ⟨k, ks, rfl⟩ := List.exists_cons_of_ne_nil hkey
  have hk : isWordChar k = true := hchars k List.mem_cons_self
  have hhash : '#' ∉ us ++ (k :: ks ++ (vs ++ '=' :: rest)) := by
    have hnot : '#' ∉ k :: ks := fun hmem => ne_of_isWordChar (hchars _ hmem) (by decide) rfl
    rw [List.mem_append, List.mem_append, List.mem_append]
    rintro (hmem | hmem | hmem | hmem)
    · exact hus.not_mem (by decide) hmem
    · exact hnot hmem
    · exact hvs.not_mem (by decide) hmem
    · exact hrest (List.mem_of_ne_of_mem (by decide) hmem)
  -- The equals sign is no white space, so nothing is cut off in front of it but the gap.
  have htrim : trim (us ++ (k :: ks ++ (vs ++ '=' :: rest))) =
      k :: ks ++ vs ++ '=' :: trimEnd isWhite rest := by
    have hfront : (us ++ (k :: ks ++ (vs ++ '=' :: rest))).dropWhile isWhite =
        k :: ks ++ (vs ++ '=' :: rest) := by
      refine (takeWhile_dropWhile_append hus.isWhite fun c hc => ?_).2
      obtain rfl := Option.some.inj hc
      exact isWhite_of_isWordChar hk
    rw [trim, trimBoth, hfront, ← List.append_assoc]
    exact trimEnd_append_cons (by decide) (k :: ks ++ vs) rest
  have hequal : ∀ c ∈ k :: ks ++ vs, (decide (c ≠ '=')) = true := by
    intro c hc
    refine decide_eq_true ?_
    rcases List.mem_append.mp hc with hc | hc
    · exact ne_of_isWordChar (hchars c hc) (by decide)
    · rintro rfl
      exact hvs.not_mem (by decide) hc
  have hstop : ∀ c ∈ ('=' :: trimEnd isWhite rest).head?, decide (c ≠ '=') = false := by simp
  have hcut := takeWhile_dropWhile_append hequal hstop
  have hname : trim ([] ++ (k :: ks ++ vs)) = k :: ks :=
    trimBoth_append (by simp) hvs.isWhite (trimmed_of_forall fun c hc =>
      isWhite_of_isWordChar (hchars c hc))
  rw [List.nil_append] at hname
  have hhead : (k :: ks ++ vs ++ '=' :: trimEnd isWhite rest).head? ≠ some '[' := by
    intro heq
    exact ne_of_isWordChar hk (by decide) (Option.some.inj heq)
  have hmem : (k :: ks ++ vs ++ '=' :: trimEnd isWhite rest).contains '=' = true := by simp
  unfold SettingsLine.ofText
  rw [hcs.takeWhile_append hhash, htrim]
  simp only [hcut.1, hcut.2, hname, hmem, hhead]
  rfl

/-! ### Values -/

theorem Quoted.trimBoth_eq {text : String} {ts : List Char} (h : Quoted text ts)
    (htext : ∀ c ∈ text.toList, c ≠ '"') :
    trimBoth (· = '"') ts = text.toList := by
  have htrimmed : Trimmed (· = '"') text.toList :=
    trimmed_of_forall fun c hc => decide_eq_false (htext c hc)
  have hquote : ∀ c ∈ ['"'], decide (c = '"') = true := by simp
  rcases h with rfl | rfl
  · exact trimBoth_eq_self htrimmed
  · exact trimBoth_append hquote hquote htrimmed

theorem Quoted.forall_mem {text : String} {ts : List Char} (h : Quoted text ts) {P : Char → Prop}
    (htext : ∀ c ∈ text.toList, P c) (hquote : P '"') : ∀ c ∈ ts, P c := by
  rcases h with rfl | rfl
  · exact htext
  · simp only [List.mem_cons, List.mem_append, List.not_mem_nil, or_false]
    rintro c (rfl | hc | rfl)
    · exact hquote
    · exact htext c hc
    · exact hquote

theorem Numeral.number?_eq {n : Nat} {ts : List Char} (h : Numeral n ts) (hn : n ≤ 1024) :
    number? ts = some n := by
  obtain ⟨ds, hne, hdigits, rfl, hts⟩ := h
  have hall : (ds.isEmpty || !ds.all Char.isDigit) = false := by
    rw [Bool.or_eq_false_iff, List.isEmpty_eq_false_iff, Bool.not_eq_false', List.all_eq_true]
    exact ⟨hne, hdigits⟩
  have hle : decimalValue ds ≤ maxNumber := Nat.le_trans hn (by decide)
  unfold number?
  dsimp only
  rcases hts with rfl | rfl
  · split
    · next rest => exact absurd (hdigits '+' List.mem_cons_self) (by decide)
    · rw [hall, if_pos hle]
      rfl
  · simp only [hall, if_pos hle]
    rfl

theorem Numeral.forall_mem {n : Nat} {ts : List Char} (h : Numeral n ts) :
    ∀ c ∈ ts, c.isDigit = true ∨ c = '+' := by
  obtain ⟨ds, -, hdigits, -, rfl | rfl⟩ := h
  · exact fun c hc => .inl (hdigits c hc)
  · intro c hc
    rcases List.mem_cons.mp hc with rfl | hc
    · exact .inr rfl
    · exact .inl (hdigits c hc)

theorem isWordChar_of_mem_name {e : ElementType} {c : Char} (h : c ∈ e.name.toList) :
    isWordChar c = true := by
  have hall : e.name.toList.all isWordChar = true := by cases e <;> decide
  exact List.all_eq_true.mp hall c h

theorem Setting.key_chars (a : Setting) :
    a.key.toList ≠ [] ∧ ∀ c ∈ a.key.toList, isWordChar c = true := by
  have hkeys : ∀ key ∈ ["prefix", "local_size", "default", "alignment"],
      key.toList ≠ [] ∧ key.toList.all isWordChar = true := by decide
  have hkey : a.key ∈ ["prefix", "local_size", "default", "alignment"] := by
    cases a <;> simp [key]
  exact ⟨(hkeys _ hkey).1, List.all_eq_true.mp (hkeys _ hkey).2⟩

/-- A written value has characters, and none that are cut off. -/
theorem Setting.Written.chars {a : Setting} {ts : List Char} (h : a.Written ts) (ha : a.Valid) :
    ts ≠ [] ∧ ∀ c ∈ ts, isWhite c = false ∧ c ≠ '#' := by
  have hname : ∀ {c}, isWordChar c = true → isWhite c = false ∧ c ≠ '#' := fun hc =>
    ⟨isWhite_of_isWordChar hc, ne_of_isWordChar hc (by decide)⟩
  have hquoted : ∀ {text : String} {ts}, text ≠ "" → Quoted text ts → ts ≠ [] := by
    rintro text ts hne (rfl | rfl)
    · exact fun hnil => hne (String.toList_eq_nil_iff.mp hnil)
    · exact List.cons_ne_nil _ _
  have hnumeral : ∀ {n ts}, Numeral n ts → ts ≠ [] ∧ ∀ c ∈ ts, isWhite c = false ∧ c ≠ '#' := by
    intro n ts h
    refine ⟨?_, fun c hc => ?_⟩
    · obtain ⟨ds, hne, -, -, rfl | rfl⟩ := h
      · exact hne
      · exact List.cons_ne_nil _ _
    · rcases h.forall_mem c hc with hdigit | rfl
      · exact hname (isWordChar_iff.mpr (.inr (.inl hdigit)))
      · decide
  cases a with
  | stem text => exact ⟨hquoted ha.1 h, h.forall_mem (fun c hc => hname (ha.2 c hc)) (by decide)⟩
  | localSize n => exact hnumeral h
  | defaultType e =>
    exact ⟨hquoted (by cases e <;> decide) h,
      h.forall_mem (fun c hc => hname (isWordChar_of_mem_name hc)) (by decide)⟩
  | alignment a => exact hnumeral h

theorem ofText_assign {a : Setting} {us vs ws ts xs cs : List Char} (hus : Gap us) (hvs : Gap vs)
    (hws : Gap ws) (hxs : Gap xs) (hcs : Comment cs) (hts : a.Written ts) (ha : a.Valid) :
    SettingsLine.ofText (us ++ (a.key.toList ++ (vs ++ '=' :: (ws ++ (ts ++ xs)))) ++ cs) =
      .entry a.key ts := by
  obtain ⟨hne, hchars⟩ := hts.chars ha
  have hhash : '#' ∉ ws ++ (ts ++ xs) := by
    rw [List.mem_append, List.mem_append]
    rintro (hmem | hmem | hmem)
    · exact hws.not_mem (by decide) hmem
    · exact (hchars _ hmem).2 rfl
    · exact hxs.not_mem (by decide) hmem
  have hend : trimEnd isWhite (ws ++ (ts ++ xs)) = ws ++ ts := by
    rw [← List.append_assoc]
    refine trimEnd_append hxs.isWhite fun c hc => (hchars c ?_).1
    rw [List.getLast?_append_of_ne_nil _ hne] at hc
    exact List.mem_of_mem_getLast? hc
  have hvalue : trim (ws ++ (ts ++ [])) = ts :=
    trimBoth_append hws.isWhite (by simp) (trimmed_of_forall fun c hc => (hchars c hc).1)
  rw [List.append_nil] at hvalue
  rw [ofText_entry hus hvs a.key_chars.1 a.key_chars.2 hhash hcs, hend, hvalue,
    String.ofList_toList]

theorem ofText_other {key : String} {us vs rest : List Char} (hus : Gap us) (hvs : Gap vs)
    (hkey : key ≠ "") (hchars : ∀ c ∈ key.toList, isWordChar c = true) (hrest : '\n' ∉ rest) :
    ∃ value, SettingsLine.ofText (us ++ (key.toList ++ (vs ++ '=' :: rest))) =
      .entry key value := by
  have hcut : us ++ (key.toList ++ (vs ++ '=' :: rest)) =
      us ++ (key.toList ++ (vs ++ '=' :: rest.takeWhile (· ≠ '#'))) ++
        rest.dropWhile (· ≠ '#') := by
    simp only [List.append_assoc, List.cons_append, List.takeWhile_append_dropWhile]
  have hhash : '#' ∉ rest.takeWhile (· ≠ '#') := fun hmem => by
    have := List.all_eq_true.mp List.all_takeWhile _ hmem
    simp at this
  have hne : key.toList ≠ [] := fun hnil => hkey (String.toList_eq_nil_iff.mp hnil)
  rw [hcut, ofText_entry hus hvs hne hchars hhash (comment_dropWhile hrest), String.ofList_toList]
  exact ⟨_, rfl⟩

end SettingsText

namespace Settings

open SettingsText

/-- The settings with one value replaced. -/
def assign (s : Settings) : Setting → Settings
  | .stem text => { s with stem := text }
  | .localSize n => { s with localSize := n }
  | .defaultType e => { s with defaultType := e }
  | .alignment a => { s with alignment := a }

theorem set_assign {a : Setting} {ts : List Char} (s : Settings)
    (h : a.Written ts) (ha : a.Valid) :
    s.set a.header a.key ts = .ok (s.assign a) := by
  cases a with
  | stem text =>
    have htrim := Quoted.trimBoth_eq h fun c hc => ne_of_isWordChar (ha.2 c hc) (by decide)
    have hne : text.toList ≠ [] := fun hnil => ha.1 (String.toList_eq_nil_iff.mp hnil)
    have hall : text.toList.all isWordChar = true := List.all_eq_true.mpr ha.2
    change s.setStem ts = _
    simp [setStem, htrim, hne, hall, assign]
  | localSize n =>
    change s.setLocalSize ts = _
    rw [setLocalSize, Numeral.number?_eq h ha.2]
    simp [(isLocalSize_iff n).mpr ha, assign]
  | defaultType e =>
    have htrim :=
      Quoted.trimBoth_eq h fun c hc => ne_of_isWordChar (isWordChar_of_mem_name hc) (by decide)
    have hname : ElementType.ofName? e.name = some e := by cases e <;> decide
    change s.setDefaultType ts = _
    rw [setDefaultType, htrim, String.ofList_toList, hname]
    rfl
  | alignment a =>
    have hwidth : Alignment.ofWidth? a.width = some a := by cases a <;> decide
    have hsmall : a.width ≤ 1024 := by cases a <;> decide
    change s.setAlignment ts = _
    rw [setAlignment, Numeral.number?_eq h hsmall]
    simp only [hwidth]
    rfl

theorem set_other {header key : String} (s : Settings) (value : List Char)
    (h : ∀ a : Setting, a.header = header → a.key ≠ key) : s.set header key value = .ok s := by
  unfold set
  split
  · exact absurd rfl (h (.stem "") rfl)
  · exact absurd rfl (h (.localSize 0) rfl)
  · exact absurd rfl (h (.defaultType .float) rfl)
  · exact absurd rfl (h (.alignment .one) rfl)
  · rfl

/-- What a line of the given content does to the settings. -/
def apply (s : Settings) : Content → Settings
  | .assign a => s.assign a
  | .blank | .header _ | .other _ => s

/-! ### Reading -/

theorem readLines_line {content : Content} {line : List Char} (h : Line content line)
    {header : String} {contents : List Content} (hfits : Fits header (content :: contents))
    (number : Nat) (s : Settings) (lines : List (List Char)) :
    readLines number header s (line :: lines) =
      readLines (number + 1) (content.under header) (s.apply content) lines := by
  cases h with
  | blank hus hcs => simp only [readLines, ofText_blank hus hcs, apply, Content.under]
  | @header name us vs ws xs cs hus hvs hws hxs hcs hname =>
    simp only [readLines, ofText_header hus hvs hws hxs hcs hname, String.ofList_toList,
      apply, Content.under]
  | @assign a us vs ws ts xs cs hus hvs hws hxs hcs hts =>
    obtain ⟨⟨rfl, ha⟩, -⟩ := hfits
    simp only [readLines, ofText_assign hus hvs hws hxs hcs hts ha, set_assign s hts ha,
      Outcome.ok_bind, apply, Content.under]
  | @other key us vs rest hus hvs hkey hchars hrest =>
    obtain ⟨value, hvalue⟩ := ofText_other hus hvs hkey hchars hrest
    simp only [readLines, hvalue, set_other s value hfits.1, Outcome.ok_bind,
      apply, Content.under]

theorem readLines_eq {contents : List Content} {lines : List (List Char)}
    (h : List.Forall₂ Line contents lines) {header : String} (hfits : Fits header contents)
    (number : Nat) (s : Settings) :
    readLines number header s lines = .ok (contents.foldl apply s) := by
  induction h generalizing header number s with
  | nil => rfl
  | cons hline _ ih => rw [readLines_line hline hfits, ih hfits.tail, List.foldl_cons]

theorem textLines_append {line : List Char} (h : '\n' ∉ line) (rest : List Char) :
    textLines (line ++ '\n' :: rest) = line :: textLines rest := by
  induction line with
  | nil => rw [List.nil_append, textLines, if_pos rfl]
  | cons c line ih =>
    have hc : c ≠ '\n' := fun heq => h (heq ▸ List.mem_cons_self)
    rw [List.cons_append, textLines, if_neg hc, ih fun hmem => h (List.mem_cons_of_mem _ hmem)]

theorem textLines_of_not_mem {c : Char} {line : List Char} (h : '\n' ∉ c :: line) :
    textLines (c :: line) = [c :: line] := by
  have hc : c ≠ '\n' := fun heq => h (heq ▸ List.mem_cons_self)
  induction line generalizing c with
  | nil => rw [textLines, if_neg hc, textLines]
  | cons d line ih =>
    have hline : '\n' ∉ d :: line := fun hmem => h (List.mem_cons_of_mem _ hmem)
    rw [textLines, if_neg hc, ih hline fun heq => hline (heq ▸ List.mem_cons_self)]

/-- Joined lines are read like the lines. A last line without characters is not seen, but it
would be blank. -/
theorem readLines_textLines {lines : List (List Char)} (h : ∀ line ∈ lines, '\n' ∉ line)
    (number : Nat) (header : String) (s : Settings) :
    readLines number header s (textLines (['\n'].intercalate lines)) =
      readLines number header s lines := by
  induction lines generalizing number header s with
  | nil => rfl
  | cons line lines ih =>
    have hline := h line List.mem_cons_self
    cases lines with
    | nil =>
      rw [List.intercalate_singleton]
      cases line with
      | nil => rfl
      | cons c line => rw [textLines_of_not_mem hline]
    | cons next lines =>
      have ih := ih fun l hl => h l (List.mem_cons_of_mem _ hl)
      rw [List.intercalate_cons_cons, List.append_assoc, List.singleton_append,
        textLines_append hline, readLines, readLines]
      simp only [ih]

theorem not_mem_line {content : Content} {line : List Char}
    (h : Line content line) {header : String} {contents : List Content}
    (hfits : Fits header (content :: contents)) : '\n' ∉ line := by
  have hgap : ∀ {us}, Gap us → '\n' ∉ us := fun hus => hus.not_mem (by decide)
  have hname : ∀ {name : List Char}, (∀ c ∈ name, isWordChar c = true) → '\n' ∉ name :=
    fun hchars hmem => ne_of_isWordChar (hchars _ hmem) (by decide) rfl
  have hcomment : ∀ {cs}, Comment cs → '\n' ∉ cs := by
    rintro cs (rfl | ⟨rest, rfl, hrest⟩)
    · simp
    · simpa using hrest
  cases h with
  | blank hus hcs => simp [hgap hus, hcomment hcs]
  | header hus hvs hws hxs hcs hvisible =>
    have hvisible : '\n' ∉ _ := fun hmem => absurd (hvisible _ hmem).1 (by decide)
    simp [hgap hus, hgap hvs, hgap hws, hgap hxs, hcomment hcs, hvisible]
  | @assign a us vs ws ts xs cs hus hvs hws hxs hcs hts =>
    have hts : '\n' ∉ ts := fun hmem => absurd ((hts.chars hfits.1.2).2 _ hmem).1 (by decide)
    simp [hgap hus, hgap hvs, hgap hws, hgap hxs, hcomment hcs, hts, hname a.key_chars.2]
  | other hus hvs _ hchars hrest => simp [hgap hus, hgap hvs, hname hchars, hrest]

theorem not_mem_lines {contents : List Content} {lines : List (List Char)}
    (h : List.Forall₂ Line contents lines) {header : String} (hfits : Fits header contents) :
    ∀ line ∈ lines, '\n' ∉ line := by
  induction h generalizing header with
  | nil => simp
  | cons hline _ ih => exact List.forall_mem_cons.mpr ⟨not_mem_line hline hfits, ih hfits.tail⟩

/-! ### The last assignments -/

/-- The settings have the value. -/
def Has (s : Settings) : Setting → Prop
  | .stem text => s.stem = text
  | .localSize n => s.localSize = n
  | .defaultType e => s.defaultType = e
  | .alignment a => s.alignment = a

theorem has_assign (s : Settings) (a : Setting) : (s.assign a).Has a := by
  cases a <;> rfl

theorem Has.apply {s : Settings} {a : Setting} (h : s.Has a) {content : Content}
    (hcontent : ∀ b, content = .assign b → b.key ≠ a.key) : (s.apply content).Has a := by
  cases content with
  | assign b =>
    have hkey := hcontent b rfl
    cases b with
    | stem text => cases a with
      | stem text' => exact absurd rfl hkey
      | localSize | defaultType | alignment => exact h
    | localSize n => cases a with
      | localSize n' => exact absurd rfl hkey
      | stem | defaultType | alignment => exact h
    | defaultType e => cases a with
      | defaultType e' => exact absurd rfl hkey
      | stem | localSize | alignment => exact h
    | alignment w => cases a with
      | alignment w' => exact absurd rfl hkey
      | stem | localSize | defaultType => exact h
  | blank => exact h
  | header name => exact h
  | other key => exact h

theorem Has.foldl {a : Setting} {contents : List Content}
    (hcontents : ∀ b, .assign b ∈ contents → b.key ≠ a.key) {s : Settings} (h : s.Has a) :
    (contents.foldl Settings.apply s).Has a := by
  induction contents generalizing s with
  | nil => exact h
  | cons content contents ih =>
    refine ih (fun b hb => hcontents b (List.mem_cons_of_mem _ hb)) (h.apply fun b hb => ?_)
    exact hcontents b (hb ▸ List.mem_cons_self)

theorem has_of_last {a : Setting} {contents : List Content} (h : Last a contents) (s : Settings) :
    (contents.foldl apply s).Has a := by
  obtain ⟨before, later, rfl, hlater⟩ := h
  rw [List.foldl_append, List.foldl_cons]
  exact (has_assign _ a).foldl hlater

theorem eq_of_has {s t : Settings} (h : ∀ a ∈ assignments s, t.Has a) : t = s := by
  simp only [assignments, List.forall_mem_cons, List.not_mem_nil, false_implies,
    implies_true, and_true] at h
  obtain ⟨hstem, hlocal, htype, halign⟩ := h
  obtain ⟨stem, localSize, defaultType, alignment⟩ := t
  obtain rfl : stem = s.stem := hstem
  obtain rfl : localSize = s.localSize := hlocal
  obtain rfl : defaultType = s.defaultType := htype
  obtain rfl : alignment = s.alignment := halign
  rfl

/-- A text that writes settings is read as these settings. -/
theorem ofText_of_writes {s : Settings} {text : String} (h : Writes s text) :
    ofText text = .ok s := by
  obtain ⟨contents, lines, hlines, hfits, hlast, htext⟩ := h
  have hread := readLines_eq hlines hfits 1 standard
  rw [eq_of_has fun a ha => has_of_last (hlast a ha) standard] at hread
  rw [ofText, htext, readLines_textLines (not_mem_lines hlines hfits), hread]

/-! ### What is read can be used -/

theorem valid_standard : standard.Valid where
  nonempty := by decide
  chars := List.all_eq_true.mp rfl
  power := ⟨7, rfl⟩
  small := by decide

section Set

variable {s s' : Settings} {value : List Char}

theorem Valid.setStem (h : s.Valid) (hset : s.setStem value = .ok s') : s'.Valid := by
  unfold Settings.setStem at hset
  dsimp only at hset
  split at hset
  · cases hset
  · next hstem =>
    obtain rfl := Except.ok.inj hset
    rw [Bool.not_eq_true, Bool.or_eq_false_iff, List.isEmpty_eq_false_iff, Bool.not_eq_false',
      List.all_eq_true] at hstem
    refine ⟨fun hempty => hstem.1 (String.ofList_eq_empty_iff.mp hempty),
      fun c hc => ?_, h.power, h.small⟩
    rw [String.toList_ofList] at hc
    exact hstem.2 c hc

theorem Valid.setLocalSize (h : s.Valid) (hset : s.setLocalSize value = .ok s') : s'.Valid := by
  unfold Settings.setLocalSize at hset
  split at hset
  · cases hset
  · split at hset
    · next n _ hsize =>
      obtain rfl := Except.ok.inj hset
      obtain ⟨hpower, hsmall⟩ := (isLocalSize_iff n).mp hsize
      exact ⟨h.nonempty, h.chars, hpower, hsmall⟩
    · cases hset

theorem Valid.setDefaultType (h : s.Valid) (hset : s.setDefaultType value = .ok s') :
    s'.Valid := by
  unfold Settings.setDefaultType at hset
  split at hset
  · cases hset
  · obtain rfl := Except.ok.inj hset
    exact ⟨h.nonempty, h.chars, h.power, h.small⟩

theorem Valid.setAlignment (h : s.Valid) (hset : s.setAlignment value = .ok s') : s'.Valid := by
  unfold Settings.setAlignment at hset
  split at hset
  · cases hset
  · split at hset
    · cases hset
    · obtain rfl := Except.ok.inj hset
      exact ⟨h.nonempty, h.chars, h.power, h.small⟩

theorem Valid.set (h : s.Valid) {header key : String}
    (hset : s.set header key value = .ok s') : s'.Valid := by
  unfold Settings.set at hset
  split at hset
  · exact h.setStem hset
  · exact h.setLocalSize hset
  · exact h.setDefaultType hset
  · exact h.setAlignment hset
  · obtain rfl := Except.ok.inj hset
    exact h

end Set

theorem Valid.readLines {lines : List (List Char)} {number : Nat} {header : String}
    {s s' : Settings} (h : s.Valid) (hread : Settings.readLines number header s lines = .ok s') :
    s'.Valid := by
  induction lines generalizing number header s with
  | nil =>
    obtain rfl := Except.ok.inj hread
    exact h
  | cons line lines ih =>
    rw [Settings.readLines] at hread
    split at hread
    · exact ih h hread
    · exact ih h hread
    · obtain ⟨t, hset, hread⟩ := Outcome.bind_eq_ok_iff.mp hread
      exact ih (h.set hset) hread
    · cases hread

/-! ### A text for all valid settings -/

theorem numeral_decimal (n : Nat) : Numeral n (decimal n).toList := by
  refine ⟨(decimal n).toList, ?_, fun c hc => isDigit_of_mem_decimal hc,
    decimalValue_toList_decimal n, .inl rfl⟩
  rw [decimal, String.toList_ofList]
  exact Nat.toDigits_ne_nil

theorem exists_written (a : Setting) : ∃ ts, a.Written ts := by
  cases a with
  | stem text => exact ⟨_, .inl rfl⟩
  | localSize n => exact ⟨_, numeral_decimal n⟩
  | defaultType e => exact ⟨_, .inl rfl⟩
  | alignment a => exact ⟨_, numeral_decimal a.width⟩

theorem exists_line_assign (a : Setting) : ∃ line, Line (.assign a) line := by
  obtain ⟨ts, hts⟩ := exists_written a
  have hgap : Gap [] := by simp [Gap]
  exact ⟨_, .assign hgap hgap hgap hgap (.inl rfl) hts⟩

theorem exists_line_header {name : String} (h : ∀ c ∈ name.toList, Visible c) :
    ∃ line, Line (.header name) line := by
  have hgap : Gap [] := by simp [Gap]
  exact ⟨_, .header hgap hgap hgap hgap (.inl rfl) h⟩

theorem exists_lines {contents : List Content}
    (h : ∀ content ∈ contents, ∃ line, Line content line) :
    ∃ lines, List.Forall₂ Line contents lines := by
  induction contents with
  | nil => exact ⟨[], .nil⟩
  | cons content contents ih =>
    obtain ⟨line, hline⟩ := h content List.mem_cons_self
    obtain ⟨lines, hlines⟩ := ih fun c hc => h c (List.mem_cons_of_mem _ hc)
    exact ⟨line :: lines, .cons hline hlines⟩

/-- The sections and the assignments in their usual order. -/
def contents (s : Settings) : List Content :=
  [.header "generator", .assign (.stem s.stem), .assign (.localSize s.localSize),
    .header "types", .assign (.defaultType s.defaultType), .assign (.alignment s.alignment)]

theorem Valid.exists_writes {s : Settings} (h : s.Valid) : ∃ text, Writes s text := by
  have hline : ∀ content ∈ s.contents, ∃ line, Line content line := by
    intro content hcontent
    simp only [contents, List.mem_cons, List.not_mem_nil, or_false] at hcontent
    rcases hcontent with rfl | rfl | rfl | rfl | rfl | rfl
    · exact exists_line_header (by simp [Visible])
    · exact exists_line_assign _
    · exact exists_line_assign _
    · exact exists_line_header (by simp [Visible])
    · exact exists_line_assign _
    · exact exists_line_assign _
  obtain ⟨lines, hlines⟩ := exists_lines hline
  have hfits : Fits "" s.contents :=
    ⟨⟨rfl, h.nonempty, h.chars⟩, ⟨rfl, h.power, h.small⟩, ⟨rfl, trivial⟩, ⟨rfl, trivial⟩, trivial⟩
  refine ⟨String.ofList (['\n'].intercalate lines), s.contents, lines, hlines, hfits, ?_, by simp⟩
  simp only [assignments, List.forall_mem_cons, List.not_mem_nil, false_implies,
    implies_true, and_true]
  refine ⟨⟨[_], _, rfl, ?_⟩, ⟨[_, _], _, rfl, ?_⟩, ⟨[_, _, _, _], _, rfl, ?_⟩,
    ⟨[_, _, _, _, _], _, rfl, ?_⟩⟩
  all_goals simp [Setting.key]

end Settings

/-- All valid settings are written by some text. A text that writes settings, with the four
assignments in any order and with whatever is passed over between them, is read as exactly
these. And whatever text is read, the settings are valid and their work-group size passes the
check. -/
theorem settings_roundtrip :
    (∀ s : Settings, s.Valid → ∃ text, SettingsText.Writes s text) ∧
    (∀ s text, SettingsText.Writes s text → Settings.ofText text = .ok s) ∧
    ∀ text s, Settings.ofText text = .ok s → s.Valid ∧ s.checkLocalSize = .ok () := by
  refine ⟨fun s h => h.exists_writes, fun s text h => Settings.ofText_of_writes h,
    fun text s h => ?_⟩
  have hvalid : s.Valid := Settings.valid_standard.readLines h
  refine ⟨hvalid, ?_⟩
  rw [Settings.checkLocalSize, if_pos ((isLocalSize_iff _).mpr ⟨hvalid.power, hvalid.small⟩)]

/-- A section that is opened twice, a value that is given twice, and a key in a section that
does not know it. -/
def reopenedText : String :=
  "\t[ types ]\nalignment = 2\nprefix = x\n" ++
    "[generator]\nlocal_size = +0256 # here\nprefix = \"blas1\"\n\n" ++
    "[types]\ndefault = double\nalignment = 4\n"

def reopenedSettings : Settings :=
  ⟨"blas1", 256, .double, .four⟩

def reopenedContents : List SettingsText.Content :=
  [.header "types", .assign (.alignment .two), .other "prefix", .header "generator",
    .assign (.localSize 256),
    .assign (.stem "blas1"), .blank, .header "types", .assign (.defaultType .double),
    .assign (.alignment .four), .blank]

open SettingsText in
theorem writes_reopenedText : Writes reopenedSettings reopenedText := by
  have hnone : Gap [] := by simp [Gap]
  have hblank : Gap [' '] := by simp [Gap]
  have htab : Gap ['\t'] := by simp [Gap]
  have hplain : ∀ (a : Setting) ts, a.Written ts →
      Line (.assign a) ([] ++ (a.key.toList ++ ([' '] ++ '=' :: ([' '] ++ (ts ++ [])))) ++ []) :=
    fun a ts hts => .assign hnone hblank hblank hnone (.inl rfl) hts
  have hheader : ∀ name : String, (∀ c ∈ name.toList, Visible c) →
      Line (.header name) ([] ++ ('[' :: ([] ++ (name.toList ++ [])) ++ [']'] ++ []) ++ []) :=
    fun name hname => .header hnone hnone hnone hnone (.inl rfl) hname
  have htypes : ∀ c ∈ "types".toList, Visible c := by simp [Visible]
  have hempty : Line .blank ([] ++ []) := .blank hnone (.inl rfl)
  have hdigit : ∀ c : Char, c.isDigit = true → Numeral (decimalValue [c]) [c] := fun c hc =>
    ⟨[c], by simp, by simpa using hc, rfl, .inl rfl⟩
  have hsize : Line (.assign (.localSize 256)) ([] ++ ("local_size".toList ++
      ([' '] ++ '=' :: ([' '] ++ ("+0256".toList ++ [' '])))) ++ "# here".toList) :=
    .assign hnone hblank hblank hblank (.inr ⟨" here".toList, rfl, by decide⟩)
      ⟨"0256".toList, by decide, List.all_eq_true.mp rfl, rfl, .inr rfl⟩
  have hlines : List.Forall₂ Line reopenedContents _ :=
    .cons (.header htab hblank hblank hnone (.inl rfl) htypes) <|
    .cons (hplain (.alignment .two) ['2'] (hdigit '2' rfl)) <|
    .cons (.other hnone hblank (by decide) (List.all_eq_true.mp rfl)
      (by decide : '\n' ∉ " x".toList)) <|
    .cons (hheader "generator" (by simp [Visible])) <| .cons hsize <|
    .cons (hplain (.stem "blas1") "\"blas1\"".toList (.inr rfl)) <| .cons hempty <|
    .cons (hheader "types" htypes) <|
      .cons (hplain (.defaultType .double) "double".toList (.inl rfl)) <|
    .cons (hplain (.alignment .four) ['4'] (hdigit '4' rfl)) <| .cons hempty .nil
  have hfits : Fits "" reopenedContents := by
    refine ⟨⟨rfl, trivial⟩, ?_, ⟨rfl, ⟨8, rfl⟩, by decide⟩, ⟨rfl, by decide, ?_⟩, ⟨rfl, trivial⟩,
      ⟨rfl, trivial⟩, trivial⟩
    · intro a ha
      cases a <;> simp [Setting.header, Setting.key] at ha ⊢
    · exact List.all_eq_true.mp rfl
  refine ⟨reopenedContents, _, hlines, hfits, ?_, by decide +kernel⟩
  simp only [assignments, reopenedSettings, List.forall_mem_cons, List.not_mem_nil, false_implies,
    implies_true, and_true]
  refine ⟨⟨reopenedContents.take 5, _, rfl, ?_⟩, ⟨reopenedContents.take 4, _, rfl, ?_⟩,
    ⟨reopenedContents.take 8, _, rfl, ?_⟩, ⟨reopenedContents.take 9, _, rfl, ?_⟩⟩
  all_goals simp [Setting.key]

theorem settings_roundtrip_reopened :
    SettingsText.Writes reopenedSettings reopenedText ∧
    Settings.ofText reopenedText = .ok reopenedSettings ∧
      reopenedSettings.Valid ∧ reopenedSettings.checkLocalSize = .ok () := by
  have hread := settings_roundtrip.2.1 reopenedSettings reopenedText writes_reopenedText
  exact ⟨writes_reopenedText, hread, settings_roundtrip.2.2 reopenedText reopenedSettings hread⟩

end LinearKernels
