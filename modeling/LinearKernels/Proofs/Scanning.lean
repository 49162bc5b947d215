import LinearKernels.Proofs.Lexemes

/-!
Scanning loses nothing. The pieces tile the source: every byte belongs to one of them, each is
read where the one before it ends, and none is empty. Tokens, complaints and what is skipped are
told apart by the pieces alone. Conversely lexemes that are written with blanks between them are
scanned back.
-/

namespace LinearKernels

/-! ### Pieces tile the source -/

/-- No lexeme begins with all of `own` and goes on into `after`. -/
def Longest (own after : List UInt8) : Prop :=
  ∀ longer, longer <+: own ++ after → own.length < longer.length →
    ∀ l : Lexeme, ¬ l.WrittenAs longer

/-- The bytes are cut into those of the next piece and those after it. -/
theorem Piece.read_tile (b : UInt8) (rest : List UInt8) :
    ∃ own, b :: rest = own ++ rest.drop (read b rest).2 ∧ own.length = 1 + (read b rest).2 ∧
      (read b rest).1.Covers own (rest.drop (read b rest).2) ∧
      Longest own (rest.drop (read b rest).2) := by
  obtain ⟨hle, hcovers⟩ := read_covers b rest
  have hlength : (b :: rest.take (read b rest).2).length = 1 + (read b rest).2 := by
    rw [List.length_cons, List.length_take]
    omega
  refine ⟨b :: rest.take (read b rest).2, ?_, hlength, hcovers, ?_⟩
  · rw [List.cons_append, List.take_append_drop]
  · intro longer hfront hlonger l hl
    rw [List.cons_append, List.take_append_drop] at hfront
    obtain ⟨c, more, rfl⟩ := List.exists_cons_of_length_pos (Nat.zero_lt_of_lt hlonger)
    obtain ⟨rfl, hmore⟩ := List.cons_prefix_cons.mp hfront
    have hread := length_le_read hl hmore
    rw [hlength, List.length_cons] at hlonger
    omega

/-- The place of a piece among the bytes. -/
structure Tile (file start : Nat) (bytes : List UInt8) (p : Spanned Piece)
    (before own after : List UInt8) : Prop where
  split : bytes = before ++ (own ++ after)
  nonempty : 0 < own.length
  span : p.span = ⟨file, start + before.length, start + before.length + own.length⟩
  covers : p.value.Covers own after
  longest : Longest own after

theorem exists_tile {file start : Nat} {bytes : List UInt8} {p : Spanned Piece}
    (hp : p ∈ pieces file start bytes) :
    ∃ before own after, Tile file start bytes p before own after := by
  fun_induction pieces file start bytes with
  | case1 => cases hp
  | case2 start b rest piece extra hread ih =>
    obtain ⟨own, hsplit, hlength, hcovers, hlongest⟩ := Piece.read_tile b rest
    rw [hread] at hsplit hlength hcovers hlongest
    dsimp only at hsplit hlength hcovers hlongest
    rcases List.mem_cons.mp hp with rfl | hp
    · exact ⟨[], own, _, hsplit, by omega, by rw [hlength, Nat.add_assoc]; rfl, hcovers, hlongest⟩
    · obtain ⟨before, own', after, htile⟩ := ih hp
      refine ⟨own ++ before, own', after, ?_, htile.nonempty, ?_, htile.covers, htile.longest⟩
      · rw [hsplit, htile.split, List.append_assoc]
      · rw [htile.span, List.length_append, hlength]
        simp only [Nat.add_assoc]

namespace Tile

variable {file : Nat} {bytes before own after : List UInt8} {p : Spanned Piece}

theorem start_eq (h : Tile file 0 bytes p before own after) : p.span.start = before.length := by
  rw [h.span]
  exact Nat.zero_add _

theorem stop_eq (h : Tile file 0 bytes p before own after) :
    p.span.stop = p.span.start + own.length := by
  rw [h.span]

theorem drop_start (h : Tile file 0 bytes p before own after) :
    bytes.drop p.span.start = own ++ after := by
  rw [h.start_eq, h.split]
  exact List.drop_left

theorem stop_add (h : Tile file 0 bytes p before own after) :
    p.span.stop + after.length = bytes.length := by
  rw [h.stop_eq, h.start_eq, h.split, List.length_append, List.length_append, Nat.add_assoc]

theorem getElem?_own (h : Tile file 0 bytes p before own after) {i : Nat}
    (hfrom : p.span.start ≤ i) (hto : i < p.span.stop) : bytes[i]? = own[i - p.span.start]? := by
  have hstop := h.stop_eq
  have hi : p.span.start + (i - p.span.start) = i := by omega
  rw [← hi, ← List.getElem?_drop, h.drop_start, hi, List.getElem?_append_left (by omega)]

theorem getElem?_stop (h : Tile file 0 bytes p before own after) :
    bytes[p.span.stop]? = after.head? := by
  rw [h.stop_eq, ← List.getElem?_drop, h.drop_start, List.getElem?_append_right (Nat.le_refl _),
    Nat.sub_self, List.head?_eq_getElem?]

end Tile

/-- A piece ends before the next one begins. -/
theorem pairwise_pieces (file start : Nat) (bytes : List UInt8) :
    (pieces file start bytes).Pairwise fun p q => p.span.stop ≤ q.span.start := by
  fun_induction pieces file start bytes with
  | case1 => exact .nil
  | case2 start b rest piece extra hread ih =>
    refine List.pairwise_cons.mpr ⟨fun q hq => ?_, ih⟩
    obtain ⟨before, own, after, htile⟩ := exists_tile hq
    rw [htile.span]
    exact Nat.le_add_right _ _

/-- Pieces are the same or do not overlap. -/
theorem pieces_apart {file start : Nat} {bytes : List UInt8} {p q : Spanned Piece}
    (hp : p ∈ pieces file start bytes) (hq : q ∈ pieces file start bytes) :
    p = q ∨ p.span.stop ≤ q.span.start ∨ q.span.stop ≤ p.span.start := by
  have hpairwise := List.pairwise_iff_getElem.mp (pairwise_pieces file start bytes)
  obtain ⟨i, hi, rfl⟩ := List.mem_iff_getElem.mp hp
  obtain ⟨j, hj, rfl⟩ := List.mem_iff_getElem.mp hq
  rcases Nat.lt_trichotomy i j with hlt | rfl | hlt
  · exact .inr (.inl (hpairwise i j hi hj hlt))
  · exact .inl rfl
  · exact .inr (.inr (hpairwise j i hj hi hlt))

/-- Every byte belongs to a piece. -/
theorem exists_piece (file start : Nat) (bytes : List UInt8) {i : Nat} (hi : i < bytes.length) :
    ∃ p ∈ pieces file start bytes, p.span.start ≤ start + i ∧ start + i < p.span.stop := by
  fun_induction pieces file start bytes generalizing i with
  | case1 => cases hi
  | case2 start b rest piece extra hread ih =>
    by_cases hhere : i < 1 + extra
    · exact ⟨_, List.mem_cons_self, Nat.le_add_right _ _, by dsimp only; omega⟩
    · have hrest : i - (1 + extra) < (rest.drop extra).length := by
        rw [List.length_drop]
        rw [List.length_cons] at hi
        omega
      obtain ⟨p, hp, hstart, hstop⟩ := ih hrest
      exact ⟨p, List.mem_cons_of_mem _ hp, by omega, by omega⟩

/-! ### Scans -/

/-- The bytes of a span. -/
def Span.bytes (span : Span) (source : List UInt8) : List UInt8 :=
  (source.drop span.start).take (span.stop - span.start)

theorem Tile.bytes_span {file : Nat} {bytes before own after : List UInt8} {p : Spanned Piece}
    (h : Tile file 0 bytes p before own after) : p.span.bytes bytes = own := by
  rw [Span.bytes, h.drop_start, h.stop_eq, Nat.add_sub_cancel_left]
  exact List.take_left

/-- Two slashes and what follows them on their line. -/
structure IsComment (source : List UInt8) (start stop : Nat) : Prop where
  slashes : [47, 47] <+: source.drop start
  line : ∀ i, start ≤ i → i < stop → source[i]? ≠ some 10
  ends : stop = source.length ∨ source[stop]? = some 10

/-- The complaint about an integer that does not fit. -/
def tooLarge (digits : List UInt8) (span : Span) : Diagnostic :=
  (Diagnostic.error ("integer literal '" ++ byteText digits ++ "' is too large") span).withHelp
    "maximum integer value is 18446744073709551615"

namespace Scan

/-- The tokens, and a mark at the end of the file. -/
def stream (s : Scan) : List (Spanned (Option Lexeme)) :=
  s.tokens.map (·.map some) ++ [⟨none, s.finish⟩]

theorem values_stream (s : Scan) :
    s.stream.map (·.value) = (s.tokens.map (·.value)).map some ++ [none] := by
  simp [stream, Spanned.map, Function.comp_def]

/-- The scan accounts for every byte of the source. -/
structure Lossless (file : Nat) (source : List UInt8) (s : Scan) : Prop where
  ends : ∃ before, s.stream = before ++ [⟨none, ⟨file, source.length, source.length⟩⟩] ∧
    ∀ t ∈ before, t.value ≠ none
  inRange : ∀ t ∈ s.stream, t.span.file = file ∧ t.span.start ≤ t.span.stop ∧
    t.span.stop ≤ source.length
  ordered : s.stream.Pairwise fun t u => t.span.start < t.span.stop ∧ t.span.stop ≤ u.span.start
  spelled : ∀ t ∈ s.tokens, (t.value.WrittenAs (t.span.bytes source) ∧ t.value.Valid) ∨
    (t.value = .integer 0 ∧ tooLarge (t.span.bytes source) t.span ∈ s.diagnostics ∧
      ∃ value, maxInteger < value ∧ (Lexeme.integer value).WrittenAs (t.span.bytes source))
  longest : ∀ t ∈ s.tokens, ∀ longer, longer <+: source.drop t.span.start →
    t.span.stop - t.span.start < longer.length → ∀ l : Lexeme, ¬ l.WrittenAs longer
  unextended : ∀ t ∈ s.tokens, ∀ b, source[t.span.stop]? = some b → t.value.growsBy b = false
  skipped : ∀ i b, source[i]? = some b →
    (∀ t ∈ s.tokens, ¬ (t.span.start ≤ i ∧ i < t.span.stop)) → isBlankByte b = true ∨
    (∃ start stop, start ≤ i ∧ i < stop ∧ IsComment source start stop ∧
      ∀ t ∈ s.tokens, t.span.stop ≤ start ∨ stop ≤ t.span.start) ∨
    ∃ d ∈ s.diagnostics, d.span = ⟨file, i, i + 1⟩

end Scan

section Scanned

variable {file : Nat} {source : String}

theorem mem_tokens_iff {t : Token} : t ∈ (scan file source).tokens ↔
    ∃ p ∈ pieces file 0 (utf8 source), p.value.lexeme? = some t.value ∧ p.span = t.span := by
  simp only [scan, List.mem_filterMap, Option.map_eq_some_iff]
  constructor
  · rintro ⟨p, hp, l, hl, rfl⟩
    exact ⟨p, hp, hl, rfl⟩
  · rintro ⟨p, hp, hl, hspan⟩
    exact ⟨p, hp, t.value, hl, by rw [hspan]⟩

theorem mem_diagnostics_iff {d : Diagnostic} : d ∈ (scan file source).diagnostics ↔
    ∃ p ∈ pieces file 0 (utf8 source), p.value.diagnostic? p.span = some d := by
  simp only [scan, List.mem_filterMap]

theorem token_written {t : Token} (ht : t ∈ (scan file source).tokens) :
    (t.value.WrittenAs (t.span.bytes (utf8 source)) ∧ t.value.Valid) ∨
      (t.value = .integer 0 ∧ tooLarge (t.span.bytes (utf8 source)) t.span ∈
        (scan file source).diagnostics ∧
        ∃ value, maxInteger < value ∧
          (Lexeme.integer value).WrittenAs (t.span.bytes (utf8 source))) := by
  obtain ⟨p, hp, hlexeme, hspan⟩ := mem_tokens_iff.mp ht
  obtain ⟨before, own, after, htile⟩ := exists_tile hp
  have hcovers := htile.covers
  rw [← hspan, htile.bytes_span]
  cases hvalue : p.value with
  | blank | strayDot | strayByte =>
    rw [hvalue] at hlexeme
    cases hlexeme
  | lexeme l =>
    rw [hvalue] at hlexeme hcovers
    obtain rfl := Option.some.inj hlexeme
    exact .inl hcovers
  | oversized digits =>
    rw [hvalue] at hlexeme hcovers
    obtain ⟨rfl, hlarge⟩ := hcovers
    refine .inr ⟨(Option.some.inj hlexeme).symm, mem_diagnostics_iff.mpr ⟨p, hp, ?_⟩, hlarge⟩
    have hmax : "maximum integer value is " ++ decimal maxInteger =
        "maximum integer value is 18446744073709551615" := by decide
    rw [hvalue, Piece.diagnostic?, hmax]
    rfl

theorem token_longest {t : Token} (ht : t ∈ (scan file source).tokens) {longer : List UInt8}
    (hfront : longer <+: (utf8 source).drop t.span.start)
    (hlonger : t.span.stop - t.span.start < longer.length) (l : Lexeme) :
    ¬ l.WrittenAs longer := by
  obtain ⟨p, hp, -, hspan⟩ := mem_tokens_iff.mp ht
  obtain ⟨before, own, after, htile⟩ := exists_tile hp
  have hstop := htile.stop_eq
  rw [← hspan] at hfront hlonger
  rw [htile.drop_start] at hfront
  exact htile.longest longer hfront (by omega) l

/-- The byte after a token makes no longer lexeme of it. -/
theorem token_unextended {t : Token} (ht : t ∈ (scan file source).tokens) {b : UInt8}
    (hb : (utf8 source)[t.span.stop]? = some b) : t.value.growsBy b = false := by
  obtain ⟨p, hp, -, hspan⟩ := mem_tokens_iff.mp ht
  obtain ⟨before, own, after, htile⟩ := exists_tile hp
  have hwritten := token_written ht
  rw [← hspan, htile.bytes_span] at hwritten
  rw [← hspan, htile.getElem?_stop] at hb
  obtain ⟨after, rfl⟩ := List.head?_eq_some_iff.mp hb
  have hgrows : ∀ l : Lexeme, l.WrittenAs own → l.growsBy b = false := by
    intro l hl
    cases hgrow : l.growsBy b with
    | false => rfl
    | true =>
      obtain ⟨l', hl'⟩ := hl.grow hgrow
      exact absurd hl' (htile.longest (own ++ [b]) ⟨after, by simp⟩ (by simp) l')
  -- An integer that does not fit is read as zero, and is as long as its digits all the same.
  rcases hwritten with ⟨hwritten, -⟩ | ⟨hzero, -, value, -, hwritten⟩
  · exact hgrows t.value hwritten
  · rw [hzero]
    exact hgrows (.integer value) hwritten

theorem token_range {t : Token} (ht : t ∈ (scan file source).tokens) :
    t.span.file = file ∧ t.span.start < t.span.stop ∧ t.span.stop ≤ (utf8 source).length := by
  obtain ⟨p, hp, -, hspan⟩ := mem_tokens_iff.mp ht
  obtain ⟨before, own, after, htile⟩ := exists_tile hp
  have hnonempty := htile.nonempty
  have hstop := htile.stop_eq
  have hend := htile.stop_add
  rw [← hspan]
  exact ⟨by rw [htile.span], by omega, by omega⟩

theorem tokens_ordered (file : Nat) (source : String) :
    (scan file source).tokens.Pairwise fun t u => t.span.stop ≤ u.span.start := by
  refine List.pairwise_filterMap.mpr ((pairwise_pieces file 0 (utf8 source)).imp ?_)
  intro p q hpq t ht u hu
  obtain ⟨l, -, rfl⟩ := Option.map_eq_some_iff.mp ht
  obtain ⟨m, -, rfl⟩ := Option.map_eq_some_iff.mp hu
  exact hpq

/-- A comment among the pieces is one of the source. -/
theorem Tile.isComment {bytes before own after : List UInt8} {p : Spanned Piece}
    (h : Tile file 0 bytes p before own after) (hslashes : ∃ tail, own = 47 :: 47 :: tail)
    (hline : 10 ∉ own) (hend : ∀ c ∈ after.head?, c = 10) :
    IsComment bytes p.span.start p.span.stop := by
  refine ⟨?_, fun i hfrom hto heq => ?_, ?_⟩
  · obtain ⟨tail, rfl⟩ := hslashes
    rw [h.drop_start]
    exact ⟨tail ++ after, rfl⟩
  · rw [h.getElem?_own hfrom hto] at heq
    exact hline (List.mem_of_getElem? heq)
  · cases after with
    | nil => exact .inl h.stop_add
    | cons c after =>
      obtain rfl := hend c rfl
      exact .inr h.getElem?_stop

/-- A byte outside all tokens is blank, part of a comment, or complained about. -/
theorem byte_skipped {i : Nat} {b : UInt8} (hb : (utf8 source)[i]? = some b)
    (hout : ∀ t ∈ (scan file source).tokens, ¬ (t.span.start ≤ i ∧ i < t.span.stop)) :
    isBlankByte b = true ∨
    (∃ start stop, start ≤ i ∧ i < stop ∧ IsComment (utf8 source) start stop ∧
      ∀ t ∈ (scan file source).tokens, t.span.stop ≤ start ∨ stop ≤ t.span.start) ∨
    ∃ d ∈ (scan file source).diagnostics, d.span = ⟨file, i, i + 1⟩ := by
  obtain ⟨p, hp, hfrom, hto⟩ :=
    exists_piece file 0 (utf8 source) (List.getElem?_eq_some_iff.mp hb).1
  rw [Nat.zero_add] at hfrom hto
  obtain ⟨before, own, after, htile⟩ := exists_tile hp
  have hcovers := htile.covers
  have hno : p.value.lexeme? = none := by
    cases hlexeme : p.value.lexeme? with
    | none => rfl
    | some l =>
      exact absurd ⟨hfrom, hto⟩ (hout ⟨l, p.span⟩ (mem_tokens_iff.mpr ⟨p, hp, hlexeme, rfl⟩))
  -- A piece of one byte is the byte at hand.
  have hsingle : ∀ c, own = [c] → c = b ∧ p.span = ⟨file, i, i + 1⟩ := by
    rintro c rfl
    have hstop := htile.stop_eq
    rw [List.length_singleton] at hstop
    obtain rfl : i = p.span.start := by omega
    rw [htile.getElem?_own hfrom hto, Nat.sub_self] at hb
    refine ⟨Option.some.inj hb, ?_⟩
    rw [htile.span]
    rfl
  cases hvalue : p.value with
  | lexeme | oversized =>
    rw [hvalue] at hno
    cases hno
  | blank =>
    rw [hvalue] at hcovers
    rcases hcovers with ⟨c, hown, hblank⟩ | ⟨hslashes, hline, hend⟩
    · obtain ⟨rfl, -⟩ := hsingle c hown
      exact .inl hblank
    · refine .inr (.inl ⟨p.span.start, p.span.stop, hfrom, hto,
        htile.isComment hslashes hline hend, fun t ht => ?_⟩)
      obtain ⟨q, hq, hlexeme, hspan⟩ := mem_tokens_iff.mp ht
      rw [← hspan]
      rcases pieces_apart hp hq with rfl | hbefore | hafter
      · rw [hno] at hlexeme
        cases hlexeme
      · exact .inr hbefore
      · exact .inl hafter
  | strayDot | strayByte =>
    rw [hvalue] at hcovers
    obtain ⟨c, hown⟩ := hcovers
    obtain ⟨-, hspan⟩ := hsingle c hown
    exact .inr (.inr ⟨_, mem_diagnostics_iff.mpr ⟨p, hp, by rw [hvalue]; rfl⟩, hspan⟩)

theorem scan_lossless (file : Nat) (source : String) :
    (scan file source).Lossless file (utf8 source) := by
  constructor
  · refine ⟨(scan file source).tokens.map (·.map some), rfl, fun t ht => ?_⟩
    obtain ⟨u, -, rfl⟩ := List.mem_map.mp ht
    exact Option.some_ne_none u.value
  · refine List.forall_mem_append.mpr ⟨List.forall_mem_map.mpr fun t ht => ?_, ?_⟩
    · obtain ⟨hfile, hlt, hle⟩ := token_range ht
      exact ⟨hfile, Nat.le_of_lt hlt, hle⟩
    · intro t ht
      obtain rfl := List.mem_singleton.mp ht
      exact ⟨rfl, Nat.le_refl _, Nat.le_refl _⟩
  · refine List.pairwise_append.mpr ⟨List.pairwise_map.mpr ?_, List.pairwise_singleton _ _, ?_⟩
    · refine (tokens_ordered file source).imp_of_mem fun ht _ hle => ?_
      exact ⟨(token_range ht).2.1, hle⟩
    · intro t hmem u hu
      obtain ⟨t, ht, rfl⟩ := List.mem_map.mp hmem
      obtain rfl := List.mem_singleton.mp hu
      exact (token_range ht).2
  · exact fun t ht => token_written ht
  · exact fun t ht longer hfront hlonger l => token_longest ht hfront hlonger l
  · exact fun t ht b hb => token_unextended ht hb
  · exact fun i b hb hout => byte_skipped hb hout

/-! ### Scanning what was written -/

/-- A lexeme that is followed by a blank or by nothing is a piece of its own. -/
theorem pieces_spelling (file start : Nat) {l : Lexeme} (hl : l.Valid) (rest : List UInt8)
    (hrest : ∀ c ∈ rest.head?, c = 32) : ∃ stop, pieces file start (utf8 l.spelling ++ rest) =
      ⟨.lexeme l, ⟨file, start, stop⟩⟩ :: pieces file stop rest := by
  have hwritten := hl.writtenAs
  obtain ⟨b, more, hutf⟩ := hwritten.exists_cons
  rw [hutf] at hwritten ⊢
  refine ⟨start + 1 + more.length, ?_⟩
  rw [List.cons_append, pieces, Piece.read_writtenAs hl hwritten hrest]
  dsimp only
  rw [List.drop_left]

theorem pieces_blank (file start : Nat) (rest : List UInt8) :
    pieces file start (32 :: rest) =
      ⟨.blank, ⟨file, start, start + 1⟩⟩ :: pieces file (start + 1) rest := by
  rw [pieces]
  rfl

/-- A scan of blanks and lexemes only. -/
theorem scan_of_values {values : List Piece}
    (h : (pieces file 0 (utf8 source)).map (·.value) = values)
    (hclean : ∀ v ∈ values, v = .blank ∨ ∃ l, v = .lexeme l) :
    (scan file source).tokens.map (·.value) = values.filterMap Piece.lexeme? ∧
      (scan file source).diagnostics = [] := by
  subst h
  constructor
  · simp [scan, List.map_filterMap, List.filterMap_map, Function.comp_def]
  · refine List.filterMap_eq_nil_iff.mpr fun p hp => ?_
    rcases hclean p.value (List.mem_map_of_mem hp) with hvalue | ⟨l, hvalue⟩
    · rw [hvalue]
      rfl
    · rw [hvalue]
      rfl

theorem pieces_joined (file start : Nat) {ls : List Lexeme} (h : ∀ l ∈ ls, l.Valid) :
    (pieces file start (utf8 (" ".intercalate (ls.map (·.spelling))))).map (·.value) =
      (ls.map Piece.lexeme).intersperse .blank := by
  induction ls generalizing start with
  | nil =>
    have hnil : utf8 (" ".intercalate (([] : List Lexeme).map (·.spelling))) = [] := rfl
    rw [hnil, pieces]
    rfl
  | cons l ls ih =>
    obtain ⟨hl, hls⟩ := List.forall_mem_cons.mp h
    cases ls with
    | nil =>
      have hone : utf8 (" ".intercalate ([l].map (·.spelling))) = utf8 l.spelling ++ [] := by simp
      obtain ⟨stop, hpieces⟩ := pieces_spelling file start hl [] (by simp)
      rw [hone, hpieces, pieces]
      rfl
    | cons l' ls =>
      have hmore : utf8 (" ".intercalate ((l :: l' :: ls).map (·.spelling))) =
          utf8 l.spelling ++ 32 :: utf8 (" ".intercalate ((l' :: ls).map (·.spelling))) := by
        rw [List.map_cons, String.intercalate_cons_of_ne_nil (by simp), utf8_append, utf8_append,
          List.append_assoc]
        rfl
      obtain ⟨stop, hpieces⟩ := pieces_spelling file start hl
        (32 :: utf8 (" ".intercalate ((l' :: ls).map (·.spelling)))) (by simp)
      rw [hmore, hpieces, pieces_blank, List.map_cons, List.map_cons, ih _ hls]
      rfl

theorem lexemes_joined (ls : List Lexeme) :
    ((ls.map Piece.lexeme).intersperse .blank).filterMap Piece.lexeme? = ls := by
  induction ls with
  | nil => rfl
  | cons l ls ih =>
    cases ls with
    | nil => rfl
    | cons l' ls => exact congrArg (l :: ·) ih

theorem clean_joined (ls : List Lexeme) :
    ∀ v ∈ (ls.map Piece.lexeme).intersperse .blank, v = .blank ∨ ∃ l, v = .lexeme l := by
  induction ls with
  | nil => simp
  | cons l ls ih =>
    cases ls with
    | nil => simp
    | cons l' ls =>
      exact List.forall_mem_cons.mpr ⟨.inr ⟨l, rfl⟩, List.forall_mem_cons.mpr ⟨.inl rfl, ih⟩⟩

end Scanned

/-- Scanning accounts for every byte of a source, and takes the longest lexeme everywhere.
Lexemes that are written with single blanks between them are scanned back. -/
theorem scan_accounts_for_source (file : Nat) :
    (∀ source, (scan file source).Lossless file (utf8 source)) ∧
      ∀ ls : List Lexeme, (∀ l ∈ ls, l.Valid) →
        (scan file (" ".intercalate (ls.map (·.spelling)))).stream.map (·.value) = ls.map some ++
          [none] ∧ (scan file (" ".intercalate (ls.map (·.spelling)))).diagnostics = [] := by
  refine ⟨scan_lossless file, fun ls hls => ?_⟩
  obtain ⟨htokens, hdiagnostics⟩ := scan_of_values (pieces_joined file 0 hls) (clean_joined ls)
  rw [lexemes_joined] at htokens
  exact ⟨by rw [Scan.values_stream, htokens], hdiagnostics⟩

/-- Lexemes that would be others if nothing stood between them. -/
def separateWords : List Lexeme :=
  [.keyword .vector, .ident "_x1", .integer maxInteger, .integer 0, .plus, .eq, .slash, .slash,
    .dotSlash, .ident "vectors"]

theorem scan_accounts_for_source_separate :
    (∀ l ∈ separateWords, l.Valid) ∧
      (scan 0 "vector _x1 18446744073709551615 0 + = / / ./ vectors").stream.map (·.value) =
        separateWords.map some ++ [none] := by
  have hvalid : ∀ l ∈ separateWords, l.Valid := by
    have hx : IsIdentifier "_x1" := ⟨⟨'_', ['x', '1'], rfl, rfl, List.all_eq_true.mp rfl⟩, rfl⟩
    have hvectors : IsIdentifier "vectors" :=
      ⟨⟨'v', ['e', 'c', 't', 'o', 'r', 's'], rfl, rfl, List.all_eq_true.mp rfl⟩, rfl⟩
    simp [separateWords, Lexeme.Valid, hx, hvectors]
  have hspelling : " ".intercalate (separateWords.map (·.spelling)) =
      "vector _x1 18446744073709551615 0 + = / / ./ vectors" := by decide +kernel
  have hscan := ((scan_accounts_for_source 0).2 separateWords hvalid).1
  rw [hspelling] at hscan
  exact ⟨hvalid, hscan⟩

end LinearKernels
