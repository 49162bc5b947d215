import LinearKernels.Scan

/-!
How lexemes are written, and what the scanner reads at one place. A word is a letter or an
underscore with letters, digits and underscores after it, an integer is a string of digits, and
every other lexeme has one spelling. The piece read at a place is written by the bytes it takes,
and no lexeme that could be read there is longer.
-/

namespace LinearKernels

/-! ### Bytes and characters -/

/-- A property of bytes holds of all of them if it holds of the first 256 numbers. -/
theorem forall_byte {p : UInt8 → Bool} (h : (List.range 256).all (fun n => p (.ofNat n)) = true)
    (b : UInt8) :
    p b = true := by
  have hb := List.all_eq_true.mp h b.toNat (List.mem_range.mpr b.toNat_lt)
  rwa [UInt8.ofNat_toNat] at hb

theorem toNat_byteChar (b : UInt8) : (byteChar b).toNat = b.toNat := by
  simpa using forall_byte (p := fun b => (byteChar b).toNat == b.toNat) (by decide +kernel) b

theorem eq_of_byteChar_eq {b : UInt8} {c : Char} (h : byteChar b = c) : b = .ofNat c.toNat := by
  rw [← h, toNat_byteChar, UInt8.ofNat_toNat]

theorem encode_byteChar {b : UInt8} (h : b.toNat < 128) :
    String.utf8EncodeChar (byteChar b) = [b] := by
  have hbyte := forall_byte (p := fun b => decide (128 ≤ b.toNat) ||
    String.utf8EncodeChar (byteChar b) == [b]) (by decide +kernel) b
  simpa [Nat.not_le.mpr h] using hbyte

/-- A character of one byte. -/
theorem exists_byte {c : Char} (h : c.toNat < 128) :
    ∃ b : UInt8, b.toNat < 128 ∧ byteChar b = c := by
  have hnat : (UInt8.ofNat c.toNat).toNat = c.toNat := by
    rw [UInt8.toNat_ofNat']
    omega
  refine ⟨.ofNat c.toNat, by rw [hnat]; exact h, ?_⟩
  rw [byteChar, hnat, Char.ofNat_toNat]

theorem utf8_append (s t : String) : utf8 (s ++ t) = utf8 s ++ utf8 t := by
  simp [utf8]

theorem utf8_byteText {bytes : List UInt8} (h : ∀ b ∈ bytes, b.toNat < 128) :
    utf8 (byteText bytes) = bytes := by
  rw [utf8, byteText, String.toList_ofList]
  induction bytes with
  | nil => rfl
  | cons b bytes ih =>
    obtain ⟨hb, hbytes⟩ := List.forall_mem_cons.mp h
    rw [List.map_cons, List.flatMap_cons, encode_byteChar hb, ih hbytes]
    rfl

/-- A text of one-byte characters is given by its bytes. -/
theorem map_byteChar_utf8 {text : String} (h : ∀ c ∈ text.toList, c.toNat < 128) :
    (utf8 text).map byteChar = text.toList := by
  rw [utf8]
  generalize text.toList = cs at h
  induction cs with
  | nil => rfl
  | cons c cs ih =>
    obtain ⟨hc, hcs⟩ := List.forall_mem_cons.mp h
    obtain ⟨b, hb, rfl⟩ := exists_byte hc
    rw [List.flatMap_cons, List.map_append, encode_byteChar hb, ih hcs]
    rfl

theorem byteText_utf8 {text : String} (h : ∀ c ∈ text.toList, c.toNat < 128) :
    byteText (utf8 text) = text := by
  rw [byteText, map_byteChar_utf8 h, String.ofList_toList]

/-! ### Classes of bytes -/

theorem lt_of_isWordByte {b : UInt8} (h : isWordByte b = true) : b.toNat < 128 := by
  have hbyte :=
    forall_byte (p := fun b => !isWordByte b || decide (b.toNat < 128)) (by decide +kernel) b
  simpa [h] using hbyte

theorem isWordByte_of_isWordStart {b : UInt8} (h : isWordStart b = true) :
    isWordByte b = true := by
  have hbyte := forall_byte (p := fun b => !isWordStart b || isWordByte b) (by decide +kernel) b
  simpa [h] using hbyte

/-- Words begin with no byte of a blank, a comment or an integer. -/
theorem isWordStart_only {b : UInt8} (h : isWordStart b = true) :
    isBlankByte b = false ∧ byteChar b ≠ '/' ∧ isDigitByte b = false := by
  have hbyte := forall_byte (p := fun b => !isWordStart b ||
    !isBlankByte b && byteChar b != '/' && !isDigitByte b) (by decide +kernel) b
  simpa [h, and_assoc] using hbyte

theorem isDigitByte_only {b : UInt8} (h : isDigitByte b = true) :
    isBlankByte b = false ∧ byteChar b ≠ '/' ∧ isWordStart b = false := by
  have hbyte := forall_byte (p := fun b => !isDigitByte b ||
    !isBlankByte b && byteChar b != '/' && !isWordStart b) (by decide +kernel) b
  simpa [h, and_assoc] using hbyte

/-! ### Writing lexemes -/

/-- A letter or an underscore, then letters, digits and underscores. -/
def IsWordText (name : String) : Prop :=
  ∃ c cs, name.toList = c :: cs ∧ (c.isAlpha || c = '_') = true ∧ ∀ d ∈ cs, isWordChar d = true

/-- A name that is no keyword. -/
def IsIdentifier (name : String) : Prop :=
  IsWordText name ∧ DeclKind.ofKeyword? name = none

namespace Lexeme

/-- The lexeme can be written by the given bytes. An integer may have leading zeros. -/
def WrittenAs (bytes : List UInt8) : Lexeme → Prop
  | integer value =>
    bytes ≠ [] ∧ (∀ b ∈ bytes, isDigitByte b = true) ∧ decimalValue (bytes.map byteChar) = value
  | ident name => IsIdentifier name ∧ bytes = utf8 name
  | l => bytes = utf8 l.spelling

/-- The lexeme is part of a longer one if the byte follows it. -/
def growsBy (b : UInt8) : Lexeme → Bool
  | plus | minus => byteChar b = '='
  | keyword _ | ident _ => isWordByte b
  | integer _ => isDigitByte b
  | _ => false

/-- Lexemes that can be written: identifiers are no keywords, integers fit into 64 bits. -/
def Valid : Lexeme → Prop
  | integer value => value ≤ maxInteger
  | ident name => IsIdentifier name
  | _ => True

/-- Neither a word nor an integer. -/
def isSymbol : Lexeme → Bool
  | keyword _ | integer _ | ident _ => false
  | _ => true

end Lexeme

/-- The bytes make up a word. -/
structure WordBytes (b : UInt8) (tail : List UInt8) : Prop where
  start : isWordStart b = true
  tail : ∀ c ∈ tail, isWordByte c = true

theorem WordBytes.utf8_byteText {b : UInt8} {tail : List UInt8} (h : WordBytes b tail) :
    utf8 (byteText (b :: tail)) = b :: tail := by
  refine LinearKernels.utf8_byteText (List.forall_mem_cons.mpr
    ⟨?_, fun c hc => lt_of_isWordByte (h.tail c hc)⟩)
  exact lt_of_isWordByte (isWordByte_of_isWordStart h.start)

/-- A word is a keyword or an identifier. -/
theorem WordBytes.writtenAs {b : UInt8} {tail : List UInt8} (h : WordBytes b tail) :
    (Lexeme.ofWord (byteText (b :: tail))).WrittenAs (b :: tail) ∧
    (Lexeme.ofWord (byteText (b :: tail))).Valid := by
  unfold Lexeme.ofWord
  cases hkeyword : DeclKind.ofKeyword? (byteText (b :: tail)) with
  | some kind =>
    have hspelling : kind.keyword = byteText (b :: tail) := by
      simpa using List.find?_some hkeyword
    refine ⟨?_, trivial⟩
    change b :: tail = utf8 kind.keyword
    rw [hspelling, h.utf8_byteText]
  | none =>
    have hname : IsIdentifier (byteText (b :: tail)) := by
      refine ⟨⟨byteChar b, tail.map byteChar, by simp [byteText], h.start,
        fun d hd => ?_⟩, hkeyword⟩
      obtain ⟨c, hc, rfl⟩ := List.mem_map.mp hd
      exact h.tail c hc
    exact ⟨⟨hname, h.utf8_byteText.symm⟩, hname⟩

theorem toNat_lt_of_isWordChar {c : Char} (h : isWordChar c = true) : c.toNat < 128 := by
  have hrange := toNat_range_of_isWordChar h
  omega

/-- The bytes of a name. -/
theorem IsWordText.wordBytes {name : String} (h : IsWordText name) :
    ∃ b tail, utf8 name = b :: tail ∧ WordBytes b tail ∧ byteText (b :: tail) = name := by
  obtain ⟨c, cs, hname, hc, hcs⟩ := h
  have hstart : isWordChar c = true := by
    rw [Bool.or_eq_true, decide_eq_true_eq] at hc
    exact isWordChar_iff.mpr (hc.imp_right .inr)
  have hone : ∀ d ∈ name.toList, d.toNat < 128 := by
    rw [hname]
    exact List.forall_mem_cons.mpr ⟨toNat_lt_of_isWordChar hstart,
      fun d hd => toNat_lt_of_isWordChar (hcs d hd)⟩
  have hbytes := map_byteChar_utf8 hone
  rw [hname] at hbytes
  obtain ⟨b, tail, hutf, rfl, rfl⟩ := List.map_eq_cons_iff.mp hbytes
  refine ⟨b, tail, hutf, ⟨hc, fun d hd => hcs (byteChar d) (List.mem_map_of_mem hd)⟩, ?_⟩
  rw [← hutf, byteText_utf8 hone]

theorem isWordText_keyword (kind : DeclKind) : IsWordText kind.keyword := by
  cases kind <;> exact ⟨_, _, rfl, rfl, List.all_eq_true.mp rfl⟩

theorem ofWord_keyword (kind : DeclKind) : Lexeme.ofWord kind.keyword = .keyword kind := by
  cases kind <;> decide

namespace Lexeme

/-- What is written is a word, an integer or a symbol. -/
theorem WrittenAs.cases {l : Lexeme} {bytes : List UInt8} (h : l.WrittenAs bytes) :
    (∃ b tail, bytes = b :: tail ∧ WordBytes b tail ∧ l = ofWord (byteText bytes)) ∨
      (∃ b tail, bytes = b :: tail ∧ (∀ c ∈ b :: tail, isDigitByte c = true) ∧
        l = .integer (decimalValue (bytes.map byteChar))) ∨
      l.isSymbol = true ∧ bytes = utf8 l.spelling := by
  cases l with
  | ident name =>
    obtain ⟨⟨hname, hkeyword⟩, rfl⟩ := h
    obtain ⟨b, tail, hutf, hword, htext⟩ := hname.wordBytes
    exact .inl ⟨b, tail, hutf, hword, by rw [hutf, htext, ofWord, hkeyword]⟩
  | keyword kind =>
    obtain ⟨b, tail, hutf, hword, htext⟩ := (isWordText_keyword kind).wordBytes
    have hbytes : bytes = b :: tail := h.trans hutf
    exact .inl ⟨b, tail, hbytes, hword, by rw [hbytes, htext, ofWord_keyword]⟩
  | integer value =>
    obtain ⟨hne, hdigits, rfl⟩ := h
    obtain ⟨b, tail, rfl⟩ := List.exists_cons_of_ne_nil hne
    exact .inr (.inl ⟨b, tail, rfl, hdigits, rfl⟩)
  | _ => exact .inr (.inr ⟨rfl, h⟩)

theorem growsBy_ofWord (word : String) (b : UInt8) : (ofWord word).growsBy b = isWordByte b := by
  unfold ofWord
  split <;> rfl

theorem WrittenAs.grow {l : Lexeme} {bytes : List UInt8} {b : UInt8} (h : l.WrittenAs bytes)
    (hb : l.growsBy b = true) : ∃ l' : Lexeme, l'.WrittenAs (bytes ++ [b]) := by
  rcases h.cases with ⟨c, tail, rfl, hword, rfl⟩ | ⟨c, tail, rfl, hdigits, rfl⟩ | ⟨hsymbol, rfl⟩
  · rw [growsBy_ofWord] at hb
    have hlonger : WordBytes c (tail ++ [b]) :=
      ⟨hword.start, List.forall_mem_append.mpr ⟨hword.tail, by simpa using hb⟩⟩
    exact ⟨_, hlonger.writtenAs.1⟩
  · have hdigit : isDigitByte b = true := hb
    exact ⟨.integer _, by simp, List.forall_mem_append.mpr ⟨hdigits, by simpa using hdigit⟩, rfl⟩
  · cases l with
    | keyword | integer | ident => cases hsymbol
    | plus =>
      obtain rfl := eq_of_byteChar_eq (of_decide_eq_true hb)
      exact ⟨.plusEq, rfl⟩
    | minus =>
      obtain rfl := eq_of_byteChar_eq (of_decide_eq_true hb)
      exact ⟨.minusEq, rfl⟩
    | _ => cases hb

end Lexeme

/-! ### Symbols -/

namespace Piece

/-- A symbol as it is spelled is read as that symbol. -/
theorem ofSymbol_spelling {l : Lexeme} (hl : l.isSymbol = true) :
    ∃ b more, utf8 l.spelling = b :: more ∧ isWordStart b = false ∧ isDigitByte b = false ∧
      isBlankByte b = false ∧ (byteChar b = '/' → more = []) ∧
      ∀ rest, (more = [] → ∀ c ∈ rest.head?, c = 32) →
        ofSymbol b (more ++ rest).head? = (.lexeme l, more.length) := by
  have single : ∀ {b : UInt8}, ofSymbol b none = (.lexeme l, 0) →
      ofSymbol b (some 32) = (.lexeme l, 0) →
      ∀ rest : List UInt8, (∀ c ∈ rest.head?, c = 32) →
        ofSymbol b rest.head? = (.lexeme l, 0) := by
    intro b hnone hblank rest hrest
    cases hhead : rest.head? with
    | none => exact hnone
    | some c => rwa [hrest c hhead]
  cases l with
  | keyword | integer | ident => cases hl
  | plusEq | minusEq | dotStar | dotSlash =>
    exact ⟨_, _, rfl, by decide, by decide, by decide, by decide, fun _ _ => rfl⟩
  | _ =>
    exact ⟨_, _, rfl, by decide, by decide, by decide, fun _ => rfl,
      fun rest hrest => single rfl rfl rest (hrest rfl)⟩

/-- What is read as a symbol is its spelling. -/
theorem ofSymbol_eq_lexeme {b : UInt8} {next : Option UInt8} {l : Lexeme} {extra : Nat}
    (h : ofSymbol b next = (.lexeme l, extra)) :
    l.isSymbol = true ∧ extra ≤ next.toList.length ∧
    utf8 l.spelling = b :: next.toList.take extra := by
  have one : ∀ {c : Char} {l' : Lexeme}, byteChar b = c → l'.isSymbol = true →
      utf8 l'.spelling = [.ofNat c.toNat] → (Piece.lexeme l', 0) = (.lexeme l, extra) →
      l.isSymbol = true ∧ extra ≤ next.toList.length ∧
      utf8 l.spelling = b :: next.toList.take extra := by
    intro c l' hb hsymbol hspelling heq
    obtain ⟨rfl, rfl⟩ : l' = l ∧ 0 = extra := by simpa using heq
    exact ⟨hsymbol, Nat.zero_le _, by rw [hspelling, ← eq_of_byteChar_eq hb]; rfl⟩
  have two : ∀ {c d : Char} {l' : Lexeme}, byteChar b = c → next.map byteChar = some d →
      l'.isSymbol = true →
      utf8 l'.spelling = [.ofNat c.toNat, .ofNat d.toNat] →
      (Piece.lexeme l', 1) = (.lexeme l, extra) →
      l.isSymbol = true ∧ extra ≤ next.toList.length ∧
      utf8 l.spelling = b :: next.toList.take extra := by
    intro c d l' hb hnext hsymbol hspelling heq
    obtain ⟨rfl, rfl⟩ : l' = l ∧ 1 = extra := by simpa using heq
    obtain ⟨e, rfl, he⟩ := Option.map_eq_some_iff.mp hnext
    exact ⟨hsymbol, Nat.le_refl _,
      by rw [hspelling, ← eq_of_byteChar_eq hb, ← eq_of_byteChar_eq he]; rfl⟩
  unfold ofSymbol at h
  split at h
  -- First the symbols of two characters, then the two complaints, then the symbols of one.
  case h_10 | h_12 | h_14 | h_15 => exact two ‹byteChar b = _› ‹_› rfl rfl h
  case h_16 | h_17 => cases h
  all_goals exact one ‹byteChar b = _› rfl rfl h

theorem ofSymbol_stray {b : UInt8} {next : Option UInt8}
    (h : ∀ l, (ofSymbol b next).1 ≠ .lexeme l) :
    (ofSymbol b next).2 = 0 ∧ ((ofSymbol b next).1 = .strayDot ∨
      (ofSymbol b next).1 = .strayByte b) := by
  unfold ofSymbol at h ⊢
  split
  case h_16 => exact ⟨rfl, .inl rfl⟩
  case h_17 => exact ⟨rfl, .inr rfl⟩
  all_goals simp_all

/-! ### Reading a piece -/

/-- What the bytes of a piece are. A comment begins with two slashes, and a line ends after it
or the text does. -/
def Covers (bytes after : List UInt8) : Piece → Prop
  | .blank => (∃ b, bytes = [b] ∧ isBlankByte b = true) ∨
      (∃ tail, bytes = 47 :: 47 :: tail) ∧ 10 ∉ bytes ∧ ∀ c ∈ after.head?, c = 10
  | .lexeme l => l.WrittenAs bytes ∧ l.Valid
  | .oversized digits => digits = byteText bytes ∧ ∃ value, maxInteger < value ∧
      (Lexeme.integer value).WrittenAs bytes
  | .strayDot | .strayByte _ => ∃ b, bytes = [b]

end Piece

/-- A longest run of elements ends where it is cut off. -/
theorem take_takeWhile {α : Type} (p : α → Bool) (xs : List α) :
    xs.take (xs.takeWhile p).length = xs.takeWhile p ∧
    xs.drop (xs.takeWhile p).length = xs.dropWhile p ∧ (xs.takeWhile p).length ≤ xs.length := by
  have hsplit := List.takeWhile_append_dropWhile (p := p) (l := xs)
  refine ⟨?_, ?_, ?_⟩
  · calc xs.take (xs.takeWhile p).length
        = (xs.takeWhile p ++ xs.dropWhile p).take (xs.takeWhile p).length := by rw [hsplit]
      _ = xs.takeWhile p := List.take_left
  · calc xs.drop (xs.takeWhile p).length
        = (xs.takeWhile p ++ xs.dropWhile p).drop (xs.takeWhile p).length := by rw [hsplit]
      _ = xs.dropWhile p := List.drop_left
  · have hlength := congrArg List.length hsplit
    rw [List.length_append] at hlength
    omega

namespace Lexeme

theorem writtenAs_symbol {l : Lexeme} (hl : l.isSymbol = true) {bytes : List UInt8} :
    l.WrittenAs bytes ↔ bytes = utf8 l.spelling := by
  cases l with
  | keyword | integer | ident => cases hl
  | _ => exact Iff.rfl

theorem valid_symbol {l : Lexeme} (hl : l.isSymbol = true) : l.Valid := by
  cases l with
  | keyword | integer | ident => cases hl
  | _ => trivial

end Lexeme

namespace Piece

theorem covers_ofDigits {bytes after : List UInt8} (hne : bytes ≠ [])
    (h : ∀ b ∈ bytes, isDigitByte b = true) :
    (ofDigits bytes).Covers bytes after := by
  unfold ofDigits
  dsimp only
  split
  · next hle => exact ⟨⟨hne, h, rfl⟩, hle⟩
  · next hgt => exact ⟨rfl, _, Nat.lt_of_not_le hgt, hne, h, rfl⟩

/-- Two slashes, and all bytes up to the end of the line. -/
theorem covers_comment {b : UInt8} {rest : List UInt8}
    (h : (byteChar b = '/' && rest.head?.map byteChar = some '/') = true) :
    Piece.blank.Covers (b :: rest.takeWhile (byteChar · ≠ '\n'))
      (rest.dropWhile (byteChar · ≠ '\n')) := by
  simp only [Bool.and_eq_true, decide_eq_true_eq] at h
  obtain ⟨hb, hnext⟩ := h
  obtain ⟨c, hhead, hc⟩ := Option.map_eq_some_iff.mp hnext
  obtain ⟨rest, rfl⟩ := List.head?_eq_some_iff.mp hhead
  obtain rfl : b = 47 := eq_of_byteChar_eq hb
  obtain rfl : c = 47 := eq_of_byteChar_eq hc
  refine .inr ⟨⟨_, by rw [List.takeWhile_cons_of_pos (by decide)]⟩,
    fun hmem => ?_, fun c hc => ?_⟩
  · rcases List.mem_cons.mp hmem with heq | hmem
    · exact absurd heq (by decide)
    · have hline := List.all_eq_true.mp List.all_takeWhile _ hmem
      exact absurd hline (by decide)
  · have hend := List.head?_dropWhile_not (byteChar · ≠ '\n') (47 :: rest)
    rw [hc] at hend
    exact eq_of_byteChar_eq (by simpa using hend)

theorem covers_symbol (b : UInt8) (rest : List UInt8) :
    (ofSymbol b rest.head?).2 ≤ rest.length ∧
      (ofSymbol b rest.head?).1.Covers (b :: rest.take (ofSymbol b rest.head?).2)
        (rest.drop (ofSymbol b rest.head?).2) := by
  by_cases hlexeme : ∃ l, (ofSymbol b rest.head?).1 = .lexeme l
  · obtain ⟨l, hl⟩ := hlexeme
    have hpair : ofSymbol b rest.head? = (.lexeme l, (ofSymbol b rest.head?).2) := Prod.ext hl rfl
    obtain ⟨hsymbol, hle, hspelling⟩ := ofSymbol_eq_lexeme hpair
    rw [← List.take_one, List.length_take] at hle
    have htake : rest.head?.toList.take (ofSymbol b rest.head?).2 =
        rest.take (ofSymbol b rest.head?).2 := by
      rw [← List.take_one, List.take_take, Nat.min_eq_left (by omega)]
    rw [hl]
    refine ⟨by omega, (Lexeme.writtenAs_symbol hsymbol).mpr ?_, Lexeme.valid_symbol hsymbol⟩
    rw [hspelling, htake]
  · obtain ⟨hextra, hstray⟩ := ofSymbol_stray fun l hl => hlexeme ⟨l, hl⟩
    rw [hextra]
    refine ⟨Nat.zero_le _, ?_⟩
    rcases hstray with hstray | hstray
    · rw [hstray]
      exact ⟨b, rfl⟩
    · rw [hstray]
      exact ⟨b, rfl⟩

/-- The piece read takes bytes that are there, and they write it. -/
theorem read_covers (b : UInt8) (rest : List UInt8) :
    (read b rest).2 ≤ rest.length ∧
      (read b rest).1.Covers (b :: rest.take (read b rest).2) (rest.drop (read b rest).2) := by
  unfold read
  split
  · next hblank => exact ⟨Nat.zero_le _, .inl ⟨b, rfl, hblank⟩⟩
  split
  · next hcomment =>
    obtain ⟨htake, hdrop, hle⟩ := take_takeWhile (byteChar · ≠ '\n') rest
    dsimp only
    rw [htake, hdrop]
    exact ⟨hle, covers_comment hcomment⟩
  split
  · next hword =>
    obtain ⟨htake, -, hle⟩ := take_takeWhile isWordByte rest
    dsimp only
    rw [htake]
    exact ⟨hle, WordBytes.writtenAs ⟨hword, List.all_eq_true.mp List.all_takeWhile⟩⟩
  split
  · next hdigit =>
    obtain ⟨htake, -, hle⟩ := take_takeWhile isDigitByte rest
    dsimp only
    rw [htake]
    exact ⟨hle, covers_ofDigits (List.cons_ne_nil _ _)
      (List.forall_mem_cons.mpr ⟨hdigit, List.all_eq_true.mp List.all_takeWhile⟩)⟩
  · exact covers_symbol b rest

/-- A word is read with all word bytes after it. -/
theorem read_word {b : UInt8} {tail : List UInt8} (h : WordBytes b tail) (rest : List UInt8) :
    read b (tail ++ rest) =
      (.lexeme (.ofWord (byteText (b :: (tail ++ rest.takeWhile isWordByte)))),
      tail.length + (rest.takeWhile isWordByte).length) := by
  obtain ⟨hblank, hslash, -⟩ := isWordStart_only h.start
  simp [read, hblank, hslash, h.start, List.takeWhile_append_of_pos h.tail]

/-- An integer is read with all digits after it. -/
theorem read_digits {b : UInt8} {tail : List UInt8} (h : ∀ c ∈ b :: tail, isDigitByte c = true)
    (rest : List UInt8) :
    read b (tail ++ rest) = (ofDigits (b :: (tail ++ rest.takeWhile isDigitByte)),
      tail.length + (rest.takeWhile isDigitByte).length) := by
  obtain ⟨hdigit, htail⟩ := List.forall_mem_cons.mp h
  obtain ⟨hblank, hslash, hword⟩ := isDigitByte_only hdigit
  simp [read, hblank, hslash, hword, hdigit, List.takeWhile_append_of_pos htail]

/-- A symbol of two bytes is always read; one of a single byte, if a blank or nothing follows. -/
theorem read_symbol {l : Lexeme} (hl : l.isSymbol = true) {b : UInt8} {more : List UInt8}
    (h : utf8 l.spelling = b :: more) {rest : List UInt8}
    (hrest : more = [] → ∀ c ∈ rest.head?, c = 32) :
    read b (more ++ rest) = (.lexeme l, more.length) := by
  obtain ⟨b', more', hutf, hword, hdigit, hblank, hslash, hsymbol⟩ := ofSymbol_spelling hl
  obtain ⟨rfl, rfl⟩ := List.cons.inj (h.symm.trans hutf)
  have hcomment : (byteChar b = '/' && (more ++ rest).head?.map byteChar = some '/') = false := by
    by_cases hb : byteChar b = '/'
    · obtain rfl := hslash hb
      cases hhead : rest.head? with
      | none => simp [hhead]
      | some c =>
        obtain rfl := hrest rfl c hhead
        have hblank : byteChar 32 ≠ '/' := by decide
        simp [hhead, hblank]
    · simp [hb]
  rw [← hsymbol rest hrest]
  simp only [read, hblank, hcomment, hword, hdigit]
  rfl

/-- No lexeme that could be read at this place is longer than the piece. -/
theorem length_le_read {l : Lexeme} {b : UInt8} {more rest : List UInt8}
    (h : l.WrittenAs (b :: more)) (hrest : more <+: rest) : more.length ≤ (read b rest).2 := by
  obtain ⟨after, rfl⟩ := hrest
  rcases h.cases with ⟨b', tail, heq, hword, -⟩ | ⟨b', tail, heq,
    hdigits, -⟩ | ⟨hsymbol, hspelling⟩
  · obtain ⟨rfl, rfl⟩ := List.cons.inj heq
    rw [read_word hword]
    exact Nat.le_add_right _ _
  · obtain ⟨rfl, rfl⟩ := List.cons.inj heq
    rw [read_digits hdigits]
    exact Nat.le_add_right _ _
  · by_cases hnil : more = []
    · rw [hnil]
      exact Nat.zero_le _
    · have hread : read b (more ++ after) = (.lexeme l, more.length) :=
        read_symbol hsymbol hspelling.symm fun h => absurd h hnil
      exact Nat.le_of_eq (congrArg Prod.snd hread).symm

theorem takeWhile_blank {p : UInt8 → Bool} (hp : p 32 = false) {rest : List UInt8}
    (hrest : ∀ c ∈ rest.head?, c = 32) : rest.takeWhile p = [] := by
  cases rest with
  | nil => rfl
  | cons c rest =>
    obtain rfl := hrest c rfl
    exact List.takeWhile_cons_of_neg (by simp [hp])

/-- A lexeme that is followed by a blank or by nothing is read. -/
theorem read_writtenAs {l : Lexeme} (hl : l.Valid) {b : UInt8} {more : List UInt8}
    (h : l.WrittenAs (b :: more)) {rest : List UInt8} (hrest : ∀ c ∈ rest.head?, c = 32) :
    read b (more ++ rest) = (.lexeme l, more.length) := by
  rcases h.cases with ⟨b', tail, heq, hword, rfl⟩ | ⟨b', tail, heq, hdigits,
    rfl⟩ | ⟨hsymbol, hspelling⟩
  · obtain ⟨rfl, rfl⟩ := List.cons.inj heq
    rw [read_word hword, takeWhile_blank (by decide) hrest]
    simp
  · obtain ⟨rfl, rfl⟩ := List.cons.inj heq
    have hfits : decimalValue ((b :: more).map byteChar) ≤ maxInteger := hl
    rw [read_digits hdigits, takeWhile_blank (by decide) hrest, List.append_nil,
      ofDigits, if_pos hfits]
    rfl
  · exact read_symbol hsymbol hspelling.symm fun _ => hrest

end Piece

/-- A lexeme is written by its spelling. -/
theorem Lexeme.Valid.writtenAs {l : Lexeme} (hl : l.Valid) : l.WrittenAs (utf8 l.spelling) := by
  cases l with
  | ident name => exact ⟨hl, rfl⟩
  | integer value =>
    have hdigits : ∀ c ∈ (decimal value).toList, c.isDigit = true := by
      intro c hc
      rw [decimal, String.toList_ofList] at hc
      exact Nat.isDigit_of_mem_toDigits (by decide) (by decide) hc
    have hbytes : (utf8 (decimal value)).map byteChar = (decimal value).toList :=
      map_byteChar_utf8 fun c hc => toNat_lt_of_isWordChar
        (isWordChar_iff.mpr (.inr (.inl (hdigits c hc))))
    refine ⟨fun hnil => ?_, fun b hb => ?_, ?_⟩
    · rw [spelling] at hnil
      rw [hnil, decimal, String.toList_ofList] at hbytes
      exact Nat.toDigits_ne_nil hbytes.symm
    · exact hdigits (byteChar b) (hbytes ▸ List.mem_map_of_mem hb)
    · rw [spelling, hbytes, decimalValue_toList_decimal]
  | _ => rfl

theorem Lexeme.WrittenAs.exists_cons {l : Lexeme} {bytes : List UInt8} (h : l.WrittenAs bytes) :
    ∃ b more, bytes = b :: more := by
  rcases h.cases with ⟨b, tail, heq, -⟩ | ⟨b, tail, heq, -⟩ | ⟨hsymbol, heq⟩
  · exact ⟨b, tail, heq⟩
  · exact ⟨b, tail, heq⟩
  · obtain ⟨b, more, hspelling, -⟩ := Piece.ofSymbol_spelling hsymbol
    exact ⟨b, more, heq.trans hspelling⟩

end LinearKernels
