import Lox.Proofs.Lexing.Lexemes

namespace Lox

namespace Lexing

open Text.Utf8 (bytesOf)

def Covers (c : Char) (chars : List Char) (length : Nat) : Prop :=
  ∃ shape text after, c :: chars = text ++ after ∧ (bytesOf text).length = length + 1 ∧
    Lexeme shape text

theorem byte_inj {c mark : Char} (ascii : c.toNat < 0x80) (small : mark.toNat < 0x80)
    (same : Scan.byte c = Scan.byte mark) : c = mark := by
  have holds : (Scan.byte c == Scan.byte mark) = (c == mark) :=
    (Text.Utf8.agree_mark small).ascii ascii
  rw [same, beq_self_eq_true] at holds
  exact beq_iff_eq.mp holds.symm

theorem single_table : ∀ n < 0x80, ∀ kind ∈ Scan.single? (.ofNat n),
    (String.singleton (.ofNat n), kind) ∈ symbols := by
  decide +kernel

theorem equals_table : ∀ n < 0x80, ∀ kinds ∈ Scan.withEquals? (.ofNat n),
    (String.singleton (.ofNat n), kinds.1) ∈ symbols ∧
      (String.ofList [.ofNat n, '='], kinds.2) ∈ symbols := by
  decide +kernel

theorem length_ascii {c : Char} (ascii : c.toNat < 0x80) (chars : List Char) :
    (bytesOf (c :: chars)).length = (bytesOf chars).length + 1 := by
  rw [Text.Utf8.bytesOf_cons_ascii ascii, List.length_cons]

theorem Covers.symbol {c : Char} {chars : List Char} {kind : TokenKind} (ascii : c.toNat < 0x80)
    (listed : (String.singleton c, kind) ∈ symbols) : Covers c chars 0 := by
  have lexeme := Lexeme.symbol listed
  rw [String.toList_singleton] at lexeme
  exact ⟨_, [c], chars, rfl, length_ascii ascii [], lexeme⟩

theorem Covers.pair {c : Char} {chars : List Char} {kind : TokenKind} (ascii : c.toNat < 0x80)
    (listed : (String.ofList [c, '='], kind) ∈ symbols) : Covers c ('=' :: chars) 1 := by
  have lexeme := Lexeme.symbol listed
  rw [String.toList_ofList] at lexeme
  exact ⟨_, [c, '='], chars, rfl, length_ascii ascii ['='], lexeme⟩

theorem Covers.blank {c : Char} {chars : List Char} (white : c ∈ [' ', '\r', '\t', '\n'])
    (ascii : c.toNat < 0x80) : Covers c chars 0 :=
  ⟨_, [c], chars, rfl, length_ascii ascii [], .blank white⟩

theorem Covers.comment (chars : List Char) :
    Covers '/' ('/' :: chars)
      ((bytesOf ('/' :: chars)).takeWhile (· != Scan.newline)).length := by
  refine ⟨_, '/' :: '/' :: chars.takeWhile (· != '\n'), chars.dropWhile (· != '\n'), ?_, ?_,
    .comment fun member => ?_⟩
  · rw [List.cons_append, List.cons_append, List.takeWhile_append_dropWhile]
  · rw [length_ascii (by decide), agree_line.takeWhile]
    rfl
  · have other := List.mem_takeWhile_imp member
    cases other

theorem Covers.string {chars : List Char} {found : UInt8} {after : List UInt8}
    (here : (bytesOf chars).dropWhile (· != Scan.byte '"') = found :: after) :
    Covers '"' chars (((bytesOf chars).takeWhile (· != Scan.byte '"')).length + 1) := by
  rw [agree_quote.dropWhile] at here
  cases closing : chars.dropWhile (· != '"') with
  | nil =>
    rw [closing] at here
    cases here
  | cons c more =>
    have mark := List.head?_dropWhile_not (· != '"') chars
    rw [closing] at mark
    obtain rfl : c = '"' := by simpa using mark
    refine ⟨_, '"' :: chars.takeWhile (· != '"') ++ ['"'], more, ?_, ?_,
      .string fun member => ?_⟩
    · have whole := chars.takeWhile_append_dropWhile (p := (· != '"'))
      rw [closing] at whole
      rw [List.append_assoc, List.cons_append, List.singleton_append, whole]
    · rw [Text.Utf8.bytesOf_append, List.length_append, length_ascii (by decide),
        agree_quote.takeWhile]
      rfl
    · have other := List.mem_takeWhile_imp member
      cases other

theorem Covers.word {c : Char} (start : startsWord c = true) (chars : List Char) :
    Covers c chars ((bytesOf chars).takeWhile Scan.isWordPart).length := by
  have split : c :: chars = c :: chars.takeWhile inWord ++ chars.dropWhile inWord := by
    rw [List.cons_append, List.takeWhile_append_dropWhile]
  have size : (bytesOf (c :: chars.takeWhile inWord)).length =
      ((bytesOf chars).takeWhile Scan.isWordPart).length + 1 := by
    rw [length_ascii (ascii_of_start start), agree_word.takeWhile]
  by_cases free : .ofList (c :: chars.takeWhile inWord) ∈ keywords.map Prod.fst
  · obtain ⟨entry, listed, word⟩ := List.mem_map.mp free
    have lexeme := Lexeme.keyword listed
    rw [word, String.toList_ofList] at lexeme
    exact ⟨_, _, _, split, size, lexeme⟩
  · exact ⟨_, _, _, split, size, .identifier start (fun d => List.mem_takeWhile_imp) free⟩

theorem Covers.number {c : Char} (figure : c.isDigit = true) (chars : List Char) :
    Covers c chars (Scan.numberLength (bytesOf chars)) := by
  have digits : ∀ (source : List Char), ∀ d ∈ source.takeWhile Char.isDigit, d.isDigit = true :=
    fun source d => List.mem_takeWhile_imp
  have ends : ∀ source : List Char, Ends (source.dropWhile Char.isDigit) := by
    intro source d member
    have stops := List.head?_dropWhile_not Char.isDigit source
    rw [member] at stops
    exact stops
  have before : ∀ d ∈ c :: chars.takeWhile Char.isDigit, d.isDigit = true :=
    List.forall_mem_cons.mpr ⟨figure, digits chars⟩
  have split := chars.takeWhile_append_dropWhile (p := Char.isDigit)
  by_cases goes : ∃ next more, chars.dropWhile Char.isDigit = '.' :: next :: more ∧
      next.isDigit = true
  · obtain ⟨next, more, here, digit⟩ := goes
    have after : ∀ d ∈ next :: more.takeWhile Char.isDigit, d.isDigit = true :=
      List.forall_mem_cons.mpr ⟨digit, digits more⟩
    have whole : chars = chars.takeWhile Char.isDigit ++
        '.' :: next :: more.takeWhile Char.isDigit ++ more.dropWhile Char.isDigit := by
      rw [List.append_assoc, List.cons_append, List.cons_append, List.takeWhile_append_dropWhile,
        ← here, split]
    have size := numberLength_fraction (digits chars) after (ends more)
    rw [← whole] at size
    refine ⟨_, _, more.dropWhile Char.isDigit, ?_, ?_, .fraction before after⟩
    · rw [List.cons_append, List.cons_append, ← whole]
    · rw [size, List.cons_append, length_ascii (ascii_of_digit figure)]
  · have size := numberLength_whole (digits chars) (ends chars) fun next more here =>
      Bool.eq_false_iff.mpr fun digit => goes ⟨next, more, here, digit⟩
    rw [split] at size
    refine ⟨_, _, chars.dropWhile Char.isDigit, ?_, ?_, .whole before⟩
    · rw [List.cons_append, split]
    · rw [size, length_ascii (ascii_of_digit figure)]

theorem covers {c : Char} {chars : List Char} {first : UInt8} {rest : List UInt8}
    {piece : Scan.Piece} {length : Nat} (bytes : bytesOf (c :: chars) = first :: rest)
    (cut : Scan.front first rest = (piece, length)) (closed : piece ≠ .openString)
    (known : piece ≠ .stray) : Covers c chars length := by
  by_cases ascii : c.toNat < 0x80
  · rw [Text.Utf8.bytesOf_cons_ascii ascii, List.cons.injEq] at bytes
    obtain ⟨rfl, rfl⟩ := bytes
    have listed := single_table c.toNat ascii
    have listedPair := equals_table c.toNat ascii
    rw [Char.ofNat_toNat] at listed listedPair
    cases Scan.lead (Scan.byte c) with
    | single found =>
      rw [Scan.front_single _ found] at cut
      cases cut
      exact .symbol ascii (listed _ found)
    | equals found =>
      rw [Scan.front_equals _ found] at cut
      obtain ⟨alone, doubled⟩ := listedPair _ found
      split at cut
      · rename_i equals
        rw [Text.Utf8.head_bytesOf (by decide)] at equals
        cases cut
        rw [List.eq_cons_of_mem_head? equals]
        exact .pair ascii doubled
      · cases cut
        exact .symbol ascii alone
    | white blank =>
      rw [Scan.front_white _ blank] at cut
      cases cut
      refine .blank ?_ ascii
      rcases blank with space | feed | tab
      · rw [byte_inj ascii (by decide) space]
        decide
      · rw [byte_inj ascii (by decide) feed]
        decide
      · rw [byte_inj ascii (by decide) tab]
        decide
    | newline feed =>
      rw [feed, Scan.front_newline] at cut
      cases cut
      obtain rfl := byte_inj ascii (by decide) (feed.trans newline_byte)
      exact .blank (by decide) ascii
    | slash solidus =>
      obtain rfl := byte_inj ascii (by decide) solidus
      rw [Scan.front_slash] at cut
      split at cut
      · rename_i again
        rw [Text.Utf8.head_bytesOf (by decide)] at again
        cases cut
        rw [List.eq_cons_of_mem_head? again]
        exact .comment _
      · have listed : (String.singleton '/', TokenKind.slash) ∈ symbols := by decide
        cases cut
        exact .symbol ascii listed
    | quote mark =>
      obtain rfl := byte_inj ascii (by decide) mark
      cases here : (bytesOf chars).dropWhile (· != Scan.byte '"') with
      | nil =>
        rw [Scan.front_open _ here] at cut
        exact absurd (Prod.mk.inj cut).1.symm closed
      | cons found after =>
        rw [Scan.front_closed _ here] at cut
        cases cut
        exact .string here
    | digit figure =>
      rw [Scan.front_digit _ figure] at cut
      cases cut
      rw [agree_digit.ascii ascii] at figure
      exact .number figure chars
    | word letter =>
      rw [Scan.front_word _ letter] at cut
      cases cut
      rw [agree_start.ascii ascii] at letter
      exact .word letter chars
    | strange unknown =>
      rw [Scan.front_strange _ unknown] at cut
      exact absurd (Prod.mk.inj cut).1.symm known
  -- No lexeme starts with a character of several bytes.
  · obtain ⟨lead, tail, whole, wide, -, -⟩ :=
      Text.Utf8.utf8EncodeChar_lead (Nat.le_of_not_lt ascii)
    rw [Text.Utf8.bytesOf_cons, whole, List.cons_append, List.cons.injEq] at bytes
    rw [← bytes.1, Scan.front_strange _ (Scan.strange_of_wide wide)] at cut
    exact absurd (Prod.mk.inj cut).1.symm known

end Lexing

end Lox
