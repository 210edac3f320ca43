import Lox.Proofs.Lexing.Segments
import Lox.Proofs.Lexing.Reference

namespace Lox

namespace Scan

open Text.Utf8 (bytesOf)

theorem scan_counted (source : List UInt8) :
    scan source = yielded (segments source) fun index =>
      lineOf (segments source) index - swallowed (upTo (segments source) index) := by
  have lines := scanFrom_yielded [] source
  simp only [List.nil_append, List.length_nil] at lines
  unfold yielded
  simp only [lineOf_sub_swallowed, counted_upTo_length]
  exact lines

theorem upTo_length (segments : List Segment) : upTo segments segments.length = segments := by
  unfold upTo
  rw [List.getElem?_eq_none (Nat.le_refl _)]
  exact List.take_of_length_le (Nat.le_succ _)

theorem linesExact_iff (source : List UInt8) :
    LinesExact source ↔ swallowed (segments source) = 0 := by
  unfold LinesExact
  rw [scan_counted]
  constructor
  · intro same
    have last := congrArg List.getLast? same
    simp only [yielded, List.getLast?_concat, Option.some.injEq, Except.ok.injEq, Token.mk.injEq,
      true_and, upTo_length, lineOf] at last
    have part := count_covered (segments source)
    omega
  · intro none
    have taken : ∀ index, swallowed (upTo (segments source) index) = 0 := fun index =>
      Nat.le_zero.mp (none ▸ swallowed_upTo_le (segments source) index)
    simp only [taken, Nat.sub_zero]

/-- Stray characters are alone if what they take past their first byte is. -/
theorem straysAlone_iff (source : List UInt8) :
    StraysAlone source ↔ ∀ segment ∈ segments source, segment.piece = .stray →
      ∀ b ∈ segment.bytes.tail, 0x80 ≤ b := by
  constructor
  · intro alone segment member stray b inside
    rcases alone segment member stray with ⟨c, -, single⟩ | wide
    · rw [single] at inside
      cases inside
    · exact wide b (List.mem_of_mem_tail inside)
  · intro tails segment member stray
    obtain ⟨before, after, whole⟩ := List.append_of_mem member
    obtain ⟨first, rest, -, bytes⟩ := stray_bytes whole stray
    have tail := tails segment member stray
    rw [bytes] at tail ⊢
    by_cases ascii : first < 0x80
    · rw [Text.Utf8.strayWidth_ascii ascii]
      exact .inl ⟨first, ascii, rfl⟩
    · exact .inr (List.forall_mem_cons.mpr ⟨UInt8.not_lt.mp ascii, tail⟩)

theorem newline_not_stray {source : List UInt8} {segment : Segment} (alone : StraysAlone source)
    (member : segment ∈ segments source) (stray : segment.piece = .stray) :
    newline ∉ segment.bytes := by
  obtain ⟨before, after, whole⟩ := List.append_of_mem member
  obtain ⟨first, rest, length, -, cut, bytes, -⟩ := segment_front whole
  have unlisted := ((front_error rest (stray ▸ cut)).1 rfl).unlisted
  intro inside
  rcases alone segment member stray with ⟨b, -, single⟩ | wide
  · rw [single, List.mem_singleton] at inside
    rw [bytes] at single
    rw [(List.cons.inj single).1, ← inside] at unlisted
    exact unlisted (by decide)
  · exact absurd (wide newline inside) (by decide)

theorem swallowed_eq_zero {source : List UInt8} (alone : StraysAlone source) :
    swallowed (segments source) = 0 := by
  rw [swallowed, List.count_eq_zero, covered, List.mem_flatMap]
  rintro ⟨segment, listed, inside⟩
  obtain ⟨member, stray⟩ := List.mem_filter.mp listed
  exact newline_not_stray alone member (of_decide_eq_true stray) inside

theorem text_left {c : Char} {chars : List Char} {first : UInt8} {rest : List UInt8}
    {piece : Piece} {length : Nat} (bytes : bytesOf (c :: chars) = first :: rest)
    (cut : front first rest = (piece, length)) :
    ∃ after : List Char, bytesOf after = rest.drop length ∧ after.length ≤ chars.length := by
  by_cases opened : piece = .openString
  · subst opened
    rw [front_openString rest cut, List.drop_length]
    exact ⟨[], rfl, Nat.zero_le _⟩
  by_cases stray : piece = .stray
  · exact ⟨chars, (Lexing.stray_bytes bytes (stray ▸ cut)).2, Nat.le_refl _⟩
  · obtain ⟨shape, text, after, split, size, -⟩ := Lexing.longest_found bytes cut opened stray
    refine ⟨after, ?_, ?_⟩
    · have left := congrArg (List.drop (length + 1)) bytes
      rw [split, Text.Utf8.bytesOf_append, ← size, List.drop_left, size,
        List.drop_succ_cons] at left
      exact left
    · cases text with
      | nil => cases size
      | cons d text =>
        have lengths := congrArg List.length split
        rw [List.length_append, List.length_cons, List.length_cons] at lengths
        omega

/-- In a text, a stray character takes its own bytes. -/
theorem straysAlone_text (chars : List Char) : StraysAlone (bytesOf chars) := by
  induction size : chars.length using Nat.strongRecOn generalizing chars with
  | ind n ih =>
    cases chars with
    | nil =>
      rw [Text.Utf8.bytesOf_nil, StraysAlone, segments]
      exact fun segment member => absurd member List.not_mem_nil
    | cons c chars =>
      cases bytes : bytesOf (c :: chars) with
      | nil => exact absurd bytes (Lexing.bytesOf_ne_nil c chars)
      | cons first rest =>
        cases cut : front first rest with
        | mk piece length =>
          obtain ⟨after, left, shorter⟩ := text_left bytes cut
          have fewer : after.length < n := size ▸ Nat.lt_succ_of_le shorter
          have later := (straysAlone_iff _).mp (ih after.length fewer after rfl)
          rw [straysAlone_iff, segments_cons cut, List.forall_mem_cons, ← left]
          refine ⟨?_, later⟩
          rintro rfl
          obtain ⟨lead, tail, whole, -, inside⟩ := Text.Utf8.utf8EncodeChar_width c
          have own := (Lexing.stray_bytes bytes cut).1
          rw [Text.Utf8.bytesOf_cons, Text.Utf8.bytesOf_nil, List.append_nil, whole] at own
          dsimp only
          rw [← own]
          exact inside

end Scan

/-- The pieces of a source make it up, in order. Each token and error is told to be on its line in
    the source, short of the line feeds that stray characters took along before; such a character
    takes as many bytes as its first one asks for, whatever they are. So the lines are right if and
    only if no line feed is taken along, and stray characters are alone if and only if none takes an
    ASCII byte after its first one. In a text both hold. -/
theorem scan_lines (source : List UInt8) :
    Scan.covered (Scan.segments source) = source ∧
    (scan source = Scan.yielded (Scan.segments source) fun index =>
      Scan.lineOf (Scan.segments source) index -
        Scan.swallowed (Scan.upTo (Scan.segments source) index)) ∧
    (∀ before segment after, Scan.segments source = before ++ segment :: after →
      (segment.piece = .openString → after = []) ∧
      (segment.piece = .stray → ∃ first rest, Scan.covered (segment :: after) = first :: rest ∧
        segment.bytes = first :: rest.take (Scan.strayWidth first))) ∧
    (Scan.LinesExact source ↔ Scan.swallowed (Scan.segments source) = 0) ∧
    (Scan.StraysAlone source ↔ ∀ segment ∈ Scan.segments source, segment.piece = .stray →
      ∀ b ∈ segment.bytes.tail, 0x80 ≤ b) ∧
    (Scan.StraysAlone source → Scan.LinesExact source) ∧
    ∀ text, source = Text.Utf8.encode text → Scan.StraysAlone source := by
  refine ⟨Scan.covered_segments source, Scan.scan_counted source,
    fun before segment after whole => ⟨Scan.openString_last whole, Scan.stray_bytes whole⟩,
    Scan.linesExact_iff source, Scan.straysAlone_iff source,
    fun alone => (Scan.linesExact_iff source).mpr (Scan.swallowed_eq_zero alone), ?_⟩
  rintro text rfl
  rw [Text.Utf8.encode_eq_bytesOf]
  exact Scan.straysAlone_text text.toList

-- The first byte asks for one more, which is the line feed: it is passed over and not counted.
example : Scan.segments [0xC3, Scan.newline] = [⟨.stray, [0xC3, Scan.newline]⟩] := by
  decide +kernel

end Lox
