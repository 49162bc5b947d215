import LinearKernels.Proofs.Scanning

/-!
Characters outside the language. The scanner complains about them byte by byte: a character of
one byte is named and covered by its complaint, and one of several bytes is complained about once
for each of them, under the names of other characters and at spans that cut it.
-/

namespace LinearKernels

/-! ### Strays -/

/-- The characters of symbols. -/
def isSymbolChar (c : Char) : Bool :=
  c ∈ ['(', ')', ',', ';', '<', '>', '=', '*', '/', '+', '-', '.']

/-- The characters of blanks, words, integers and symbols. -/
def isLanguageChar (c : Char) : Bool :=
  c ∈ [' ', '\t', '\n', '\x0c', '\r'] || isWordChar c || isSymbolChar c

/-- What stands before a character: a comment that it may end, a dot that may be the first
character of `./`, a slash that may be the first of a comment, or anything else. -/
inductive TextPlace where
  | plain
  | dot
  | slash
  | comment
deriving DecidableEq

namespace TextPlace

def next (p : TextPlace) (c : Char) : TextPlace :=
  if p = .comment then
    if c = '\n' then .plain else .comment
  else if c = '.' then
    .dot
  else if c = '/' then
    match p with
    | .dot => .plain
    | .slash => .comment
    | _ => .slash
  else
    .plain

/-- Outside comments and not part of the language. -/
def isStray (p : TextPlace) (c : Char) : Bool :=
  p ≠ .comment && !isLanguageChar c

theorem next_other {p : TextPlace} {c : Char} (hp : p ≠ .comment) (hdot : c ≠ '.')
    (hslash : c ≠ '/') :
    p.next c = .plain := by
  simp only [next, hp, hdot, hslash, if_false]

end TextPlace

/-- The strays among the parts of a text, with their offsets. Each part stands for a character
and has a width. -/
def strayParts {α : Type} (char : α → Char) (width : α → Nat) (p : TextPlace) (offset : Nat) :
    List α → List (α × Nat)
  | [] => []
  | a :: rest => (if p.isStray (char a) then [(a, offset)] else []) ++
      strayParts char width (p.next (char a)) (offset + width a) rest

/-- The strays of a source, with their offsets in its bytes. -/
def strays (source : String) : List (Char × Nat) :=
  strayParts id Char.utf8Size .plain 0 source.toList

/-- The strays among bytes, each of which is taken for the character of its number. -/
def strayBytes (p : TextPlace) (offset : Nat) (bytes : List UInt8) : List (UInt8 × Nat) :=
  strayParts byteChar (fun _ => 1) p offset bytes

/-! ### Strays among bytes -/

section Bytes

variable {p : TextPlace} {offset : Nat} {b : UInt8} {own rest : List UInt8}

theorem strayBytes_cons : strayBytes p offset (b :: rest) =
    (if p.isStray (byteChar b) then [(b, offset)] else []) ++
      strayBytes (p.next (byteChar b)) (offset + 1) rest :=
  rfl

theorem strayBytes_language (h : isLanguageChar (byteChar b) = true) :
    strayBytes p offset (b :: rest) = strayBytes (p.next (byteChar b)) (offset + 1) rest := by
  rw [strayBytes_cons, TextPlace.isStray, h, Bool.not_true, Bool.and_false]
  rfl

/-- A dot or a slash matters to a slash only. -/
theorem strayBytes_plain (hp : p ≠ .comment) (h : ∀ c ∈ rest.head?, byteChar c ≠ '/') :
    strayBytes p offset rest = strayBytes .plain offset rest := by
  cases rest with
  | nil => rfl
  | cons c rest =>
    have hc : byteChar c ≠ '/' := h c rfl
    simp [strayBytes_cons, TextPlace.isStray, TextPlace.next, hp, hc]

/-- Bytes of blanks, words and integers are no strays and begin nothing. -/
theorem strayBytes_append (h : ∀ b ∈ own, (isBlankByte b || isWordByte b) = true) :
    strayBytes .plain offset (own ++ rest) = strayBytes .plain (offset + own.length) rest := by
  induction own generalizing offset with
  | nil => rfl
  | cons b own ih =>
    obtain ⟨hb, hown⟩ := List.forall_mem_cons.mp h
    have hbyte := forall_byte
      (p := fun b => !(isBlankByte b || isWordByte b) ||
        isLanguageChar (byteChar b) && TextPlace.next .plain (byteChar b) == .plain)
      (by decide +kernel) b
    obtain ⟨hlanguage, hnext⟩ : isLanguageChar (byteChar b) = true ∧
        TextPlace.next .plain (byteChar b) = .plain := by
      simpa [hb] using hbyte
    rw [List.cons_append, strayBytes_language hlanguage, hnext, ih hown, List.length_cons,
      Nat.add_assoc, Nat.add_comm 1]

/-- A comment lasts to the end of its line. -/
theorem strayBytes_comment (bytes : List UInt8) :
    strayBytes .comment offset bytes =
      strayBytes .plain (offset + (bytes.takeWhile (byteChar · ≠ '\n')).length)
        (bytes.dropWhile (byteChar · ≠ '\n')) := by
  induction bytes generalizing offset with
  | nil => rfl
  | cons b bytes ih =>
    by_cases hb : byteChar b = '\n'
    · simp [hb, strayBytes_cons, TextPlace.isStray, TextPlace.next, isLanguageChar]
    · simp [hb, strayBytes_cons, TextPlace.isStray, TextPlace.next, ih,
        Nat.add_assoc, Nat.add_comm 1]

theorem isWordByte_of_isDigitByte (h : isDigitByte b = true) : isWordByte b = true :=
  isWordChar_iff.mpr (.inr (.inl h))

theorem isLanguageChar_byteChar (b : UInt8) : isLanguageChar (byteChar b) =
    (isBlankByte b || isWordStart b || isDigitByte b || isSymbolChar (byteChar b)) := by
  simpa only [beq_iff_eq] using forall_byte (p := fun b => isLanguageChar (byteChar b) ==
    (isBlankByte b || isWordStart b || isDigitByte b || isSymbolChar (byteChar b)))
      (by decide +kernel) b

/-- The stray that a piece at the offset is. -/
def Piece.strayAt (offset : Nat) : Piece → List (UInt8 × Nat)
  | .strayByte b => [(b, offset)]
  | _ => []

/-- The strays among the bytes of a symbol and after it. -/
theorem strayBytes_symbol (hcomment : byteChar b = '/' → rest.head?.map byteChar ≠ some '/')
    (hother : (isBlankByte b || isWordStart b || isDigitByte b) = false) :
    strayBytes .plain offset (b :: rest) = (Piece.ofSymbol b rest.head?).1.strayAt offset ++
      strayBytes .plain (offset + 1 + (Piece.ofSymbol b rest.head?).2)
        (rest.drop (Piece.ofSymbol b rest.head?).2) := by
  -- Symbols of one character, symbols of two, and a dot or a slash that something else follows.
  have hone {c : Char} (hb : byteChar b = c) (hlanguage : isLanguageChar c = true)
      (hnext : TextPlace.next .plain c = .plain) :
      strayBytes .plain offset (b :: rest) = strayBytes .plain (offset + 1) rest := by
    rw [strayBytes_language (hb ▸ hlanguage), hb, hnext]
  have htwo {c d : Char} (hb : byteChar b = c) (hhead : rest.head?.map byteChar = some d)
      (hlanguage : isLanguageChar c = true) (hlanguage' : isLanguageChar d = true)
      (hnext : ((TextPlace.plain.next c).next d) = .plain) :
      strayBytes .plain offset (b :: rest) =
        strayBytes .plain (offset + 1 + 1) (rest.drop 1) := by
    obtain ⟨e, he, rfl⟩ := Option.map_eq_some_iff.mp hhead
    obtain ⟨rest, rfl⟩ := List.head?_eq_some_iff.mp he
    subst hb
    rw [strayBytes_language hlanguage, strayBytes_language hlanguage', hnext]
    rfl
  have hlast {c : Char} (hb : byteChar b = c) (hlanguage : isLanguageChar c = true)
      (hnext : TextPlace.next .plain c ≠ .comment) (hhead : rest.head?.map byteChar ≠ some '/') :
      strayBytes .plain offset (b :: rest) = strayBytes .plain (offset + 1) rest := by
    subst hb
    rw [strayBytes_language hlanguage, strayBytes_plain hnext]
    intro c hc heq
    exact hhead (by rw [hc, Option.map_some, heq])
  unfold Piece.ofSymbol
  split
  case h_9 => exact hlast ‹_› rfl (by decide) (hcomment ‹_›)
  case h_10 | h_12 | h_14 | h_15 => exact htwo ‹byteChar b = _› ‹_› rfl rfl rfl
  case h_16 => exact hlast ‹_› rfl (by decide) ‹_›
  case h_17 =>
    have hsymbol : isSymbolChar (byteChar b) = false := by
      simp only [isSymbolChar, List.mem_cons, List.not_mem_nil, or_false,
        decide_eq_false_iff_not, not_or]
      and_intros <;> assumption
    have hnext : TextPlace.next .plain (byteChar b) = .plain :=
      TextPlace.next_other (by decide) ‹_› ‹_›
    rw [strayBytes_cons, TextPlace.isStray, isLanguageChar_byteChar, hother, hsymbol, hnext]
    rfl
  all_goals exact hone ‹byteChar b = _› rfl rfl

/-- One piece at a time. -/
theorem strayBytes_read (offset : Nat) (b : UInt8) (rest : List UInt8) :
    strayBytes .plain offset (b :: rest) = (Piece.read b rest).1.strayAt offset ++
      strayBytes .plain (offset + 1 + (Piece.read b rest).2)
        (rest.drop (Piece.read b rest).2) := by
  -- A run of bytes of one class is taken off together.
  have hrun {p : UInt8 → Bool} (hb : isWordByte b = true)
      (hp : ∀ c, p c = true → isWordByte c = true) :
      strayBytes .plain offset (b :: rest) =
        strayBytes .plain (offset + 1 + (rest.takeWhile p).length)
          (rest.drop (rest.takeWhile p).length) := by
    have hown : ∀ c ∈ b :: rest.takeWhile p, (isBlankByte c || isWordByte c) = true := by
      intro c hc
      rw [Bool.or_eq_true]
      rcases List.mem_cons.mp hc with rfl | hc
      · exact .inr hb
      · exact .inr (hp c (List.all_eq_true.mp List.all_takeWhile c hc))
    rw [(take_takeWhile p rest).2.1, Nat.add_assoc, Nat.add_comm 1, ← List.length_cons,
      ← strayBytes_append hown, List.cons_append, List.takeWhile_append_dropWhile]
  unfold Piece.read
  split
  · next hblank =>
    have hown : ∀ c ∈ [b], (isBlankByte c || isWordByte c) = true := by simp [hblank]
    exact strayBytes_append hown
  split
  · next hcomment =>
    simp only [Bool.and_eq_true, decide_eq_true_eq] at hcomment
    obtain ⟨hb, hnext⟩ := hcomment
    obtain ⟨c, hhead, hc⟩ := Option.map_eq_some_iff.mp hnext
    obtain ⟨rest, rfl⟩ := List.head?_eq_some_iff.mp hhead
    dsimp only
    rw [strayBytes_language (hb ▸ rfl), strayBytes_language (hc ▸ rfl),
      hb, hc, (take_takeWhile _ _).2.1, List.takeWhile_cons_of_pos (by simp [hc]),
      List.dropWhile_cons_of_pos (by simp [hc]), List.length_cons,
      Nat.add_comm (List.length _) 1, ← Nat.add_assoc (offset + 1)]
    exact strayBytes_comment rest
  split
  · next hword => exact hrun (isWordByte_of_isWordStart hword) fun _ h => h
  split
  · next hdigit =>
    have hnone : (Piece.ofDigits (b :: rest.takeWhile isDigitByte)).strayAt offset = [] := by
      unfold Piece.ofDigits
      dsimp only
      split <;> rfl
    dsimp only
    rw [hnone, List.nil_append]
    exact hrun (isWordByte_of_isDigitByte hdigit) fun _ h => isWordByte_of_isDigitByte h
  · next hblank hcomment hword hdigit =>
    refine strayBytes_symbol (fun hb hhead => hcomment ?_) ?_
    · simp [hb, hhead]
    · simp [hblank, hword, hdigit]

end Bytes

/-! ### Characters of several bytes -/

section Foreign

variable {p : TextPlace} {c : Char} {bytes : List UInt8}

theorem toNat_lt_of_isLanguageChar (h : isLanguageChar c = true) : c.toNat < 128 := by
  simp only [isLanguageChar, isSymbolChar, Bool.or_eq_true, decide_eq_true_eq] at h
  have hlist {cs : List Char} (hcs : cs.all (·.toNat < 128) = true)
      (hc : c ∈ cs) : c.toNat < 128 :=
    of_decide_eq_true (List.all_eq_true.mp hcs c hc)
  rcases h with (hblank | hword) | hsymbol
  · exact hlist (by decide) hblank
  · exact toNat_lt_of_isWordChar hword
  · exact hlist (by decide) hsymbol

theorem isLanguageChar_foreign (h : 128 ≤ c.toNat) : isLanguageChar c = false := by
  rw [← Bool.not_eq_true]
  exact fun hlanguage => Nat.not_lt.mpr h (toNat_lt_of_isLanguageChar hlanguage)

/-- Only characters of one byte begin or end anything. -/
theorem TextPlace.next_foreign (h : 128 ≤ c.toNat) :
    p.next c = if p = .comment then .comment else .plain := by
  have hne {d : Char} (hd : d.toNat < 128) : c ≠ d := fun heq => Nat.not_lt.mpr h (heq ▸ hd)
  simp only [next, hne (by decide : '\n'.toNat < 128), hne (by decide : '.'.toNat < 128),
    hne (by decide : '/'.toNat < 128), if_false]

theorem le_of_mem_encode (h : 128 ≤ c.toNat) {b : UInt8} (hb : b ∈ String.utf8EncodeChar c) :
    128 ≤ b.toNat := by
  have hbyte {n : Nat} (hle : 128 ≤ n) (hlt : n < 256) : 128 ≤ (UInt8.ofNat n).toNat := by
    rwa [UInt8.toNat_ofNat', Nat.mod_eq_of_lt hlt]
  have hvalue : ¬ c.val.toNat ≤ 127 := Nat.not_le.mpr h
  simp only [String.utf8EncodeChar, hvalue, if_false] at hb
  split at hb
  · simp only [List.mem_cons, List.not_mem_nil, or_false] at hb
    rcases hb with rfl | rfl <;> exact hbyte (by omega) (by omega)
  split at hb
  · simp only [List.mem_cons, List.not_mem_nil, or_false] at hb
    rcases hb with rfl | rfl | rfl <;> exact hbyte (by omega) (by omega)
  · simp only [List.mem_cons, List.not_mem_nil, or_false] at hb
    rcases hb with rfl | rfl | rfl | rfl <;> exact hbyte (by omega) (by omega)

theorem strayBytes_foreign_comment {offset : Nat} {rest : List UInt8}
    (h : ∀ b ∈ bytes, 128 ≤ b.toNat) :
    strayBytes .comment offset (bytes ++ rest) =
      strayBytes .comment (offset + bytes.length) rest := by
  induction bytes generalizing offset with
  | nil => rfl
  | cons b bytes ih =>
    obtain ⟨hb, hbytes⟩ := List.forall_mem_cons.mp h
    rw [List.cons_append, strayBytes_cons, TextPlace.next_foreign (toNat_byteChar b ▸ hb),
      if_pos rfl, ih hbytes, List.length_cons, Nat.add_assoc, Nat.add_comm 1]
    rfl

/-- Outside comments all bytes of a character of several bytes are strays. -/
theorem strayBytes_foreign {offset : Nat} {rest : List UInt8} (h : ∀ b ∈ bytes, 128 ≤ b.toNat) :
    strayBytes .plain offset (bytes ++ rest) =
      bytes.zipIdx offset ++ strayBytes .plain (offset + bytes.length) rest := by
  induction bytes generalizing offset with
  | nil => rfl
  | cons b bytes ih =>
    obtain ⟨hb, hbytes⟩ := List.forall_mem_cons.mp h
    have hchar : 128 ≤ (byteChar b).toNat := toNat_byteChar b ▸ hb
    have hnext : TextPlace.next .plain (byteChar b) = .plain :=
      (TextPlace.next_foreign hchar).trans (if_neg (by decide))
    rw [List.cons_append, strayBytes_cons, hnext, ih hbytes,
      TextPlace.isStray, isLanguageChar_foreign hchar, List.zipIdx_cons, List.length_cons,
      Nat.add_assoc offset 1, Nat.add_comm 1]
    rfl

end Foreign

/-- The bytes of the strays are the strays of the bytes. -/
theorem strayBytes_encode (p : TextPlace) (offset : Nat) (cs : List Char) :
    strayBytes p offset (cs.flatMap String.utf8EncodeChar) =
      (strayParts id Char.utf8Size p offset cs).flatMap fun q =>
        (String.utf8EncodeChar q.1).zipIdx q.2 := by
  induction cs generalizing p offset with
  | nil => rfl
  | cons c cs ih =>
    rw [List.flatMap_cons, strayParts, List.flatMap_append, ← ih,
      ← String.length_utf8EncodeChar, id]
    by_cases hc : c.toNat < 128
    · obtain ⟨b, hb, rfl⟩ := exists_byte hc
      rw [encode_byteChar hb, List.singleton_append, strayBytes_cons]
      congr 1
      split
      · simp [encode_byteChar hb]
      · rfl
    · have hforeign : 128 ≤ c.toNat := Nat.not_lt.mp hc
      have hbytes : ∀ b ∈ String.utf8EncodeChar c, 128 ≤ b.toNat :=
        fun b hb => le_of_mem_encode hforeign hb
      rw [TextPlace.next_foreign hforeign, TextPlace.isStray, isLanguageChar_foreign hforeign]
      by_cases hp : p = .comment
      · subst hp
        exact strayBytes_foreign_comment hbytes
      · have hhead : ∀ b ∈ (String.utf8EncodeChar c ++ cs.flatMap String.utf8EncodeChar).head?,
            byteChar b ≠ '/' := by
          obtain ⟨first, more, hcons⟩ :=
            List.exists_cons_of_ne_nil (@String.utf8EncodeChar_ne_nil c)
          rw [hcons]
          rintro b ⟨⟩ heq
          have hslash := hbytes first (hcons ▸ List.mem_cons_self)
          rw [← toNat_byteChar, heq] at hslash
          exact absurd hslash (by decide)
        rw [strayBytes_plain hp hhead, strayBytes_foreign hbytes]
        simp [hp]

/-! ### Complaints about strays -/

/-- The complaint that names a character. -/
def unexpected (c : Char) (span : Span) : Diagnostic :=
  (Diagnostic.error ("unexpected character '" ++ String.singleton c ++ "' (U+" ++
    hexadecimal4Upper c.toNat ++ ")")
    span).withHelp "this character is not part of the expression language"

def Diagnostic.isUnexpected (d : Diagnostic) : Bool :=
  "unexpected character '".toList.isPrefixOf d.message.toList

/-- The complaints about unexpected characters. -/
def Scan.unexpected (s : Scan) : List Diagnostic :=
  s.diagnostics.filter (·.isUnexpected)

theorem isUnexpected_unexpected (c : Char) (span : Span) :
    (unexpected c span).isUnexpected = true := by
  unfold Diagnostic.isUnexpected
  rw [List.isPrefixOf_iff_prefix]
  simp only [unexpected, Diagnostic.withHelp, Diagnostic.error, String.toList_append,
    List.append_assoc]
  exact List.prefix_append _ _

theorem Piece.filter_diagnostic? (piece : Piece) (span : Span) :
    (piece.diagnostic? span).toList.filter (·.isUnexpected) =
      (piece.strayAt span.start).map fun q => LinearKernels.unexpected (byteChar q.1) span := by
  cases piece with
  | blank | lexeme => rfl
  | oversized digits =>
    refine List.filter_cons_of_neg (Bool.eq_false_iff.mp ?_)
    simp only [Diagnostic.isUnexpected, Diagnostic.withHelp, Diagnostic.error,
      String.toList_append, List.append_assoc]
    rfl
  | strayDot =>
    refine List.filter_cons_of_neg (Bool.eq_false_iff.mp ?_)
    simp only [Diagnostic.isUnexpected, Diagnostic.withHelp, Diagnostic.error]
    decide
  | strayByte b =>
    have hunexpected := isUnexpected_unexpected (byteChar b) span
    have hdiagnostic : diagnostic? span (.strayByte b) =
        some (LinearKernels.unexpected (byteChar b) span) := by
      rw [LinearKernels.unexpected, toNat_byteChar]
      rfl
    rw [hdiagnostic]
    exact List.filter_cons_of_pos hunexpected

/-- Neither skipped nor a token. -/
def Piece.isStray : Piece → Bool
  | .strayDot | .strayByte _ => true
  | _ => false

/-- A stray is a piece of one byte. -/
theorem Piece.read_stray {b : UInt8} {rest : List UInt8} {piece : Piece} {extra : Nat}
    (h : read b rest = (piece, extra)) (hstray : piece.isStray = true) :
    extra = 0 ∧ (byteChar b = '.' ∨ piece = .strayByte b) := by
  unfold read at h
  split at h
  · cases h
    cases hstray
  split at h
  · cases h
    cases hstray
  split at h
  · cases h
    cases hstray
  split at h
  · unfold ofDigits at h
    dsimp only at h
    split at h <;>
    · cases h
      cases hstray
  · unfold ofSymbol at h
    split at h
    case h_16 =>
      cases h
      exact ⟨rfl, .inl ‹_›⟩
    case h_17 =>
      cases h
      exact ⟨rfl, .inr rfl⟩
    all_goals
      cases h
      cases hstray

theorem unexpected_pieces (file start : Nat) (bytes : List UInt8) :
    ((pieces file start bytes).filterMap fun p =>
      p.value.diagnostic? p.span).filter (·.isUnexpected) =
      (strayBytes .plain start bytes).map fun q => unexpected (byteChar q.1)
        ⟨file, q.2, q.2 + 1⟩ := by
  fun_induction pieces file start bytes with
  | case1 => rfl
  | case2 start b rest piece extra hread ih =>
    have hpiece :
        (piece.diagnostic? ⟨file, start, start + 1 + extra⟩).toList.filter (·.isUnexpected) =
        (piece.strayAt start).map fun q => unexpected (byteChar q.1) ⟨file, q.2, q.2 + 1⟩ := by
      rw [Piece.filter_diagnostic?]
      cases piece with
      | strayByte c =>
        obtain ⟨rfl, -⟩ := Piece.read_stray hread rfl
        rfl
      | _ => rfl
    have hstrays := strayBytes_read start b rest
    rw [hread] at hstrays
    rw [hstrays, List.map_append, ← ih, ← hpiece, ← List.filter_append, List.filterMap_cons]
    congr 1
    dsimp only
    cases piece.diagnostic? ⟨file, start, start + 1 + extra⟩ <;> rfl

/-! ### Character boundaries -/

/-- The bytes before the offset are those of whole characters. -/
def IsBoundary (source : String) (offset : Nat) : Prop :=
  ∃ before after, source.toList = before ++ after ∧
    offset = (before.flatMap String.utf8EncodeChar).length

theorem mem_strayParts {p : TextPlace} {start offset : Nat} {c : Char} {cs : List Char}
    (h : (c, offset) ∈ strayParts id Char.utf8Size p start cs) :
    ∃ before after, cs = before ++ c :: after ∧
      offset = start + (before.flatMap String.utf8EncodeChar).length := by
  induction cs generalizing p start with
  | nil => cases h
  | cons d cs ih =>
    rw [strayParts, List.mem_append] at h
    rcases h with h | h
    · split at h
      · obtain ⟨rfl, rfl⟩ := Prod.mk.inj (List.mem_singleton.mp h)
        exact ⟨[], cs, rfl, rfl⟩
      · cases h
    · obtain ⟨before, after, rfl, rfl⟩ := ih h
      refine ⟨d :: before, after, rfl, ?_⟩
      rw [List.flatMap_cons, List.length_append, String.length_utf8EncodeChar, Nat.add_assoc]

section Boundaries

variable {source : String} {c : Char} {offset : Nat}

/-- A stray begins and ends at a boundary. -/
theorem isBoundary_of_mem_strays (h : (c, offset) ∈ strays source) :
    IsBoundary source offset ∧ IsBoundary source (offset + c.utf8Size) := by
  obtain ⟨before, after, hsplit, rfl⟩ := mem_strayParts h
  rw [Nat.zero_add]
  refine ⟨⟨before, c :: after, hsplit, rfl⟩, before ++ [c], after,
    by rw [hsplit, List.append_assoc]; rfl, ?_⟩
  rw [List.flatMap_append, List.length_append, List.flatMap_singleton,
    String.length_utf8EncodeChar]

/-- There is no boundary after the first byte of a character of several bytes. -/
theorem not_isBoundary_of_mem_strays (h : (c, offset) ∈ strays source)
    (hforeign : 128 ≤ c.toNat) :
    ¬ IsBoundary source (offset + 1) := by
  obtain ⟨before, after, hsplit, rfl⟩ := mem_strayParts h
  have hsize : 1 < c.utf8Size := by
    have hone : c.utf8Size ≠ 1 :=
      fun hone => Nat.not_lt.mpr hforeign (Nat.lt_succ_of_le (Char.utf8Size_eq_one_iff.mp hone))
    have hpos := Char.utf8Size_pos c
    omega
  rintro ⟨before', after', hsplit', hlength⟩
  rw [hsplit] at hsplit'
  rcases List.append_eq_append_iff.mp hsplit' with ⟨more, rfl, hmore⟩ | ⟨more, rfl, hmore⟩
  · cases more with
    | nil => simp at hlength
    | cons d more =>
      obtain ⟨rfl, -⟩ := List.cons.inj hmore
      simp only [List.flatMap_append, List.flatMap_cons, List.length_append,
        String.length_utf8EncodeChar] at hlength
      omega
  · rw [List.flatMap_append, List.length_append] at hlength
    omega

/-- A byte of an ASCII character is a character of the source. -/
theorem exists_char_of_byte {b : UInt8} (hb : b.toNat < 128) {cs : List Char}
    {before after : List UInt8} (h : cs.flatMap String.utf8EncodeChar = before ++ b :: after) :
    ∃ front back, cs = front ++ byteChar b :: back ∧
      before = front.flatMap String.utf8EncodeChar := by
  induction cs generalizing before with
  | nil => simp at h
  | cons c cs ih =>
    rw [List.flatMap_cons] at h
    rcases List.append_eq_append_iff.mp h with ⟨more, rfl, hmore⟩ | ⟨more, hencode, hmore⟩
    · obtain ⟨front, back, rfl, rfl⟩ := ih hmore
      exact ⟨c :: front, back, rfl, rfl⟩
    · cases more with
      | nil =>
        have hnext : cs.flatMap String.utf8EncodeChar = [] ++ b :: after := hmore.symm
        obtain ⟨front, back, rfl, hfront⟩ := ih hnext
        refine ⟨c :: front, back, rfl, ?_⟩
        rw [List.flatMap_cons, ← hfront, hencode]
        simp
      | cons d more =>
        obtain ⟨rfl, -⟩ := List.cons.inj hmore
        have hc : c.toNat < 128 := by
          refine Nat.lt_of_not_le fun hforeign => ?_
          have hmem : b ∈ String.utf8EncodeChar c := by simp [hencode]
          exact Nat.not_lt.mpr (le_of_mem_encode hforeign hmem) hb
        obtain ⟨e, he, rfl⟩ := exists_byte hc
        rw [encode_byteChar he] at hencode
        cases before with
        | nil =>
          obtain ⟨rfl, -⟩ := List.cons.inj hencode
          exact ⟨[], cs, rfl, rfl⟩
        | cons x before => simp at hencode

/-- Bytes of ASCII characters lie between boundaries. -/
theorem isBoundary_of_bytes {before own after : List UInt8}
    (h : utf8 source = before ++ (own ++ after)) (hne : own ≠ [])
    (hown : ∀ b ∈ own, b.toNat < 128) :
    IsBoundary source before.length ∧ IsBoundary source (before.length + own.length) := by
  constructor
  · obtain ⟨b, own, rfl⟩ := List.exists_cons_of_ne_nil hne
    obtain ⟨front, back, hsplit, rfl⟩ := exists_char_of_byte (hown b List.mem_cons_self) h
    exact ⟨front, _, hsplit, rfl⟩
  · obtain ⟨own, b, rfl⟩ : ∃ xs x, own = xs ++ [x] :=
      ⟨_, _, (List.dropLast_concat_getLast hne).symm⟩
    have hb : b.toNat < 128 := hown b (by simp)
    have hbytes : utf8 source = (before ++ own) ++ b :: after := by simpa using h
    obtain ⟨front, back, hsplit, hfront⟩ := exists_char_of_byte hb hbytes
    refine ⟨front ++ [byteChar b], back, by simp [hsplit], ?_⟩
    rw [List.flatMap_append, ← hfront, List.flatMap_singleton, encode_byteChar hb]
    simp

end Boundaries

/-! ### Complaints at boundaries -/

section Complaints

variable {file start : Nat} {bytes : List UInt8} {p : Spanned Piece}

/-- A piece is read at its start. -/
theorem exists_read (hp : p ∈ pieces file start bytes) :
    ∃ before b rest, bytes = before ++ b :: rest ∧ p.value = (Piece.read b rest).1 ∧
      p.span = ⟨file, start + before.length,
        start + before.length + (1 + (Piece.read b rest).2)⟩ := by
  fun_induction pieces file start bytes with
  | case1 => cases hp
  | case2 start b rest piece extra hread ih =>
    rcases List.mem_cons.mp hp with rfl | hp
    · exact ⟨[], b, rest, rfl, by rw [hread], by rw [hread, Nat.add_assoc]; rfl⟩
    · obtain ⟨before, c, rest', hsplit, hvalue, hspan⟩ := ih hp
      have hle := (Piece.read_covers b rest).1
      rw [hread] at hle
      refine ⟨b :: (rest.take extra ++ before), c, rest', ?_, hvalue, ?_⟩
      · rw [List.cons_append, List.append_assoc, ← hsplit, List.take_append_drop]
      · rw [hspan, List.length_cons, List.length_append, List.length_take, Nat.min_eq_left hle]
        congr 1 <;> omega

theorem mem_strayBytes (hp : p ∈ pieces file start bytes) {b : UInt8}
    (hb : p.value = .strayByte b) :
    (b, p.span.start) ∈ strayBytes .plain start bytes := by
  fun_induction pieces file start bytes with
  | case1 => cases hp
  | case2 start c rest piece extra hread ih =>
    have hstrays := strayBytes_read start c rest
    rw [hread] at hstrays
    rw [hstrays, List.mem_append]
    rcases List.mem_cons.mp hp with rfl | hp
    · obtain rfl : piece = .strayByte b := hb
      exact .inl (List.mem_singleton.mpr rfl)
    · exact .inr (ih hp)

/-- A complaint covers ASCII characters, if strays are ASCII characters. -/
theorem complaint_bytes {b : UInt8} {rest : List UInt8} {span : Span} {d : Diagnostic}
    (hd : (Piece.read b rest).1.diagnostic? span = some d)
    (hstray : ∀ c, (Piece.read b rest).1 = .strayByte c → c.toNat < 128) :
    d.span = span ∧ ∀ c ∈ b :: rest.take (Piece.read b rest).2, c.toNat < 128 := by
  have hcovers := (Piece.read_covers b rest).2
  generalize hread : Piece.read b rest = r at *
  obtain ⟨piece, extra⟩ := r
  cases piece with
  | blank | lexeme => cases hd
  | oversized digits =>
    obtain ⟨-, value, -, -, hdigits, -⟩ := hcovers
    obtain rfl := Option.some.inj hd
    exact ⟨rfl, fun c hc => lt_of_isWordByte (isWordByte_of_isDigitByte (hdigits c hc))⟩
  | strayDot | strayByte =>
    obtain rfl := Option.some.inj hd
    obtain ⟨rfl, hbyte⟩ := Piece.read_stray hread rfl
    have hb : b.toNat < 128 := by
      rcases hbyte with hdot | hbyte
      · rw [← toNat_byteChar, hdot]
        decide
      · exact hstray b hbyte
    exact ⟨rfl, fun c hc => List.mem_singleton.mp hc ▸ hb⟩

end Complaints

section Sources

variable {file : Nat} {source : String}

theorem unexpected_scan (file : Nat) (source : String) : (scan file source).unexpected =
    (strays source).flatMap fun q => ((String.utf8EncodeChar q.1).zipIdx q.2).map fun r =>
      unexpected (byteChar r.1) ⟨file, r.2, r.2 + 1⟩ := by
  have hpieces := unexpected_pieces file 0 (utf8 source)
  rw [utf8, strayBytes_encode, List.map_flatMap] at hpieces
  exact hpieces

/-- The complaint about the first byte of a character of several bytes ends inside it. -/
theorem exists_cut_of_foreign (file : Nat) {q : Char × Nat} (hq : q ∈ strays source)
    (hforeign : 128 ≤ q.1.toNat) :
    ∃ d ∈ (scan file source).unexpected, ¬ IsBoundary source d.span.stop := by
  obtain ⟨b, more, hcons⟩ := List.exists_cons_of_ne_nil (@String.utf8EncodeChar_ne_nil q.1)
  refine ⟨unexpected (byteChar b) ⟨file, q.2, q.2 + 1⟩, ?_,
    not_isBoundary_of_mem_strays hq hforeign⟩
  rw [unexpected_scan]
  refine List.mem_flatMap.mpr ⟨q, hq, ?_⟩
  rw [hcons, List.zipIdx_cons]
  exact List.mem_cons_self

/-- ASCII characters are complained about once and whole. -/
theorem unexpected_scan_ascii (h : ∀ q ∈ strays source, q.1.toNat < 128) :
    (scan file source).unexpected =
      (strays source).map fun q => unexpected q.1 ⟨file, q.2, q.2 + q.1.utf8Size⟩ := by
  rw [unexpected_scan, List.map_eq_flatMap, List.flatMap_def, List.flatMap_def]
  refine congrArg List.flatten (List.map_congr_left fun q hq => ?_)
  obtain ⟨b, hb, hchar⟩ := exists_byte (h q hq)
  rw [← hchar, ← String.length_utf8EncodeChar, encode_byteChar hb]
  rfl

theorem isBoundary_span (h : ∀ q ∈ strays source, q.1.toNat < 128) {d : Diagnostic}
    (hd : d ∈ (scan file source).diagnostics) :
    IsBoundary source d.span.start ∧ IsBoundary source d.span.stop := by
  obtain ⟨p, hp, hdiagnostic⟩ := mem_diagnostics_iff.mp hd
  obtain ⟨before, b, rest, hsplit, hvalue, hspan⟩ := exists_read hp
  have hstray : ∀ c, (Piece.read b rest).1 = .strayByte c → c.toNat < 128 := by
    intro c hc
    have hmem := mem_strayBytes hp (hvalue.trans hc)
    rw [utf8, strayBytes_encode] at hmem
    obtain ⟨q, hq, hbyte⟩ := List.mem_flatMap.mp hmem
    obtain ⟨e, he, hchar⟩ := exists_byte (h q hq)
    rw [← hchar, encode_byteChar he] at hbyte
    obtain ⟨rfl, -⟩ := Prod.mk.inj (List.mem_singleton.mp hbyte)
    exact he
  rw [hvalue] at hdiagnostic
  obtain ⟨hsame, hbytes⟩ := complaint_bytes hdiagnostic hstray
  have hown : utf8 source =
      before ++ (b :: rest.take (Piece.read b rest).2 ++ rest.drop (Piece.read b rest).2) := by
    rw [hsplit, List.cons_append, List.take_append_drop]
  have hboundary := isBoundary_of_bytes hown (List.cons_ne_nil _ _) hbytes
  rw [List.length_cons, List.length_take, Nat.min_eq_left (Piece.read_covers b rest).1,
    Nat.add_comm _ 1] at hboundary
  rw [hsame, hspan, Nat.zero_add]
  exact hboundary

end Sources

/-- Unexpected characters outside comments are complained about byte by byte. So each is
complained about once, by its own name and at its own bytes, if and only if all of them are
ASCII characters, and only then do all complaints of the scanner lie between characters. -/
theorem strays_reported_whole_iff (file : Nat) (source : String) :
    ((scan file source).unexpected = (strays source).flatMap fun q =>
      ((String.utf8EncodeChar q.1).zipIdx q.2).map fun r =>
        unexpected (byteChar r.1) ⟨file, r.2, r.2 + 1⟩) ∧
    ((scan file source).unexpected =
        (strays source).map (fun q => unexpected q.1 ⟨file, q.2, q.2 + q.1.utf8Size⟩) ↔
      ∀ q ∈ strays source, q.1.toNat < 128) ∧
    ((∀ d ∈ (scan file source).diagnostics,
        IsBoundary source d.span.start ∧ IsBoundary source d.span.stop) ↔
      ∀ q ∈ strays source, q.1.toNat < 128) := by
  refine ⟨unexpected_scan file source, ⟨fun hwhole q hq => ?_, unexpected_scan_ascii⟩,
    ⟨fun hspans q hq => ?_, fun h d hd => isBoundary_span h hd⟩⟩
  · refine Nat.lt_of_not_le fun hforeign => ?_
    obtain ⟨d, hd, hcut⟩ := exists_cut_of_foreign file hq hforeign
    rw [hwhole] at hd
    obtain ⟨r, hr, rfl⟩ := List.mem_map.mp hd
    exact hcut (isBoundary_of_mem_strays hr).2
  · refine Nat.lt_of_not_le fun hforeign => ?_
    obtain ⟨d, hd, hcut⟩ := exists_cut_of_foreign file hq hforeign
    exact hcut (hspans d (List.mem_filter.mp hd).1).2

/-- The letter e with an acute accent is complained about as two other characters. -/
theorem accent_reported_in_parts :
    strays "é" = [('é', 0)] ∧
      (scan 0 "é").unexpected = [unexpected 'Ã' ⟨0, 0, 1⟩, unexpected '©' ⟨0, 1, 2⟩] ∧
      ¬ IsBoundary "é" 1 := by
  have hstrays : strays "é" = [('é', 0)] := by decide +kernel
  have hmem : ('é', 0) ∈ strays "é" := hstrays ▸ List.mem_singleton.mpr rfl
  refine ⟨hstrays, ?_, not_isBoundary_of_mem_strays hmem (by decide)⟩
  rw [unexpected_scan, hstrays]
  decide +kernel

end LinearKernels
