import Lox.Proofs.Lexing.Munch
import Lox.Proofs.Lexing.Stream

namespace Lox

namespace Lexing

open Text.Utf8 (bytesOf)

theorem bytesOf_ne_nil (c : Char) (chars : List Char) : bytesOf (c :: chars) ≠ [] := by
  rw [Text.Utf8.bytesOf_cons]
  exact List.append_ne_nil_of_left_ne_nil String.utf8EncodeChar_ne_nil _

/-- In front of more text, a lexeme is found as what it is, or as part of something longer. -/
theorem Lexeme.grown {shape : Shape} {text more : List Char} {first : UInt8} {rest : List UInt8}
    (lexeme : Lexeme shape text) (bytes : bytesOf (text ++ more) = first :: rest) :
    ∃ piece length, (bytesOf text).length = length + 1 ∧ piece ≠ .openString ∧ piece ≠ .stray ∧
      (∀ line, piece.yield (bytesOf text) line = shape.item? text line) ∧
      Scan.Grown piece length (Scan.front first rest) := by
  obtain ⟨first', rest', piece, alone⟩ := lexeme.alone
  rw [Text.Utf8.bytesOf_append, alone.bytes, List.cons_append, List.cons.injEq] at bytes
  obtain ⟨rfl, rfl⟩ := bytes
  refine ⟨piece, rest'.length, congrArg List.length alone.bytes, alone.closed, alone.known,
    alone.yields, ?_⟩
  exact Scan.front_grown rest' _ alone.cut alone.closed alone.known

theorem length_le_of_bytes {short long more after : List Char}
    (same : short ++ more = long ++ after)
    (fewer : (bytesOf short).length ≤ (bytesOf long).length) : short.length ≤ long.length := by
  by_contra longer
  have within : long <+: short := List.prefix_of_prefix_length_le ⟨after, rfl⟩ ⟨more, same⟩
    (Nat.le_of_not_le longer)
  obtain ⟨extra, rfl⟩ := within
  cases extra with
  | nil => exact longer (by rw [List.append_nil])
  | cons c extra =>
    have some := List.length_pos_iff.mpr (bytesOf_ne_nil c extra)
    rw [Text.Utf8.bytesOf_append, List.length_append] at fewer
    omega

theorem bytes_le_of_length {short long more after : List Char}
    (same : short ++ more = long ++ after) (shorter : short.length ≤ long.length) :
    (bytesOf short).length ≤ (bytesOf long).length := by
  have within : short <+: long := List.prefix_of_prefix_length_le ⟨more, same⟩ ⟨after, rfl⟩ shorter
  obtain ⟨extra, rfl⟩ := within
  rw [Text.Utf8.bytesOf_append, List.length_append]
  exact Nat.le_add_right _ _

variable {c : Char} {chars : List Char} {first : UInt8} {rest : List UInt8} {piece : Scan.Piece}
  {length : Nat}

theorem longest_found (bytes : bytesOf (c :: chars) = first :: rest)
    (cut : Scan.front first rest = (piece, length)) (closed : piece ≠ .openString)
    (known : piece ≠ .stray) :
    ∃ shape text after, c :: chars = text ++ after ∧ (bytesOf text).length = length + 1 ∧
      Longest shape text after := by
  obtain ⟨shape, text, after, split, size, lexeme⟩ := covers bytes cut closed known
  refine ⟨shape, text, after, split, size, lexeme, ?_⟩
  rintro other longer found ⟨more, same⟩
  -- The other lexeme, alone, is found as what it is; so what is found here is no shorter.
  rw [← split] at same
  obtain ⟨piece', length', size', -, -, -, grown⟩ := found.grown (same ▸ bytes)
  refine length_le_of_bytes (same.trans split) ?_
  rw [cut] at grown
  cases grown with
  | same equal =>
    cases equal
    omega
  | longer more =>
    dsimp only at more
    omega

theorem no_lexeme (bytes : bytesOf (c :: chars) = first :: rest)
    (cut : Scan.front first rest = (.stray, length)) {shape : Shape} {text : List Char}
    (lexeme : Lexeme shape text) : ¬ text <+: c :: chars := by
  rintro ⟨more, same⟩
  obtain ⟨piece, length', -, -, known, -, grown⟩ := lexeme.grown (same ▸ bytes)
  rw [cut] at grown
  cases grown with
  | same equal => exact known (Prod.mk.inj equal).1.symm
  | longer _ _ known => exact known rfl

theorem unquoted_of_stray (bytes : bytesOf (c :: chars) = first :: rest)
    (cut : Scan.front first rest = (.stray, length)) : c ≠ '"' := by
  rintro rfl
  rw [Text.Utf8.bytesOf_cons_ascii (by decide), List.cons.injEq] at bytes
  have unlisted := ((Scan.front_error _ cut).1 rfl).unlisted
  rw [← bytes.1] at unlisted
  exact unlisted (by decide)

/-- A string without an end starts with a quote, and there is no other one. -/
theorem unclosed_found (bytes : bytesOf (c :: chars) = first :: rest)
    (cut : Scan.front first rest = (.openString, length)) : c = '"' ∧ '"' ∉ chars := by
  obtain ⟨rfl, never⟩ := (Scan.front_error _ cut).2 rfl
  have quote : (c :: chars).head? = some '"' := by
    rw [← Text.Utf8.head_bytesOf (by decide), bytes, List.head?_cons]
  obtain rfl : c = '"' := Option.some.inj quote
  rw [Text.Utf8.bytesOf_cons_ascii (by decide), List.cons.injEq] at bytes
  rw [← bytes.2, List.dropWhile_eq_nil_iff] at never
  refine ⟨rfl, fun member => ?_⟩
  have inside : Scan.byte '"' ∈ bytesOf chars := by
    rw [← List.count_pos_iff, Text.Utf8.count_bytesOf (by decide), List.count_pos_iff]
    exact member
  exact absurd (never _ inside) (by decide)

/-- The longest lexeme is yielded, and the source goes on after it. -/
theorem scanFrom_lexeme {shape : Shape} {text after : List Char}
    (longest : Longest shape text after) (line : Nat) :
    Scan.scanFrom line [] (bytesOf (text ++ after)) =
      (shape.item? text (line + text.count '\n')).toList ++
        Scan.scanFrom (line + text.count '\n') [] (bytesOf after) := by
  obtain ⟨first, rest, piece, alone⟩ := longest.lexeme.alone
  have bytes : bytesOf (text ++ after) = first :: (rest ++ bytesOf after) := by
    rw [Text.Utf8.bytesOf_append, alone.bytes, List.cons_append]
  cases cut : Scan.front first (rest ++ bytesOf after) with
  | mk piece' length =>
    have grown := Scan.front_grown rest (bytesOf after) alone.cut alone.closed alone.known
    rw [cut] at grown
    cases grown with
    | same equal =>
      cases equal
      have lines : piece.lines (first :: rest) = text.count '\n' := by
        rw [Scan.Piece.lines_eq alone.known, ← alone.bytes, newline_byte,
          Text.Utf8.count_bytesOf (by decide)]
      rw [bytes, Scan.scanFrom_cons cut, List.take_left, List.drop_left, lines, ← alone.bytes,
        alone.yields]
    | longer more closed known =>
      -- What is found instead is a lexeme again, and a longer one.
      cases text with
      | nil => cases alone.bytes
      | cons c chars =>
        obtain ⟨other, text', after', split, size, found⟩ := longest_found bytes cut closed known
        have shorter := longest.longest found.lexeme ⟨after', split.symm⟩
        have fewer := bytes_le_of_length split.symm shorter
        rw [size, alone.bytes, List.length_cons] at fewer
        dsimp only at more
        omega

theorem stray_bytes (bytes : bytesOf (c :: chars) = first :: rest)
    (cut : Scan.front first rest = (.stray, length)) :
    bytesOf [c] = first :: rest.take length ∧ bytesOf chars = rest.drop length := by
  obtain ⟨lead, tail, whole, width, -⟩ := Text.Utf8.utf8EncodeChar_width c
  rw [Text.Utf8.bytesOf_cons, whole, List.cons_append, List.cons.injEq] at bytes
  obtain ⟨rfl, rfl⟩ := bytes
  have all : length = tail.length := by
    rw [Scan.front_stray _ cut, ← width, List.length_append]
    omega
  rw [all, List.take_left, List.drop_left, Text.Utf8.bytesOf_cons, Text.Utf8.bytesOf_nil,
    List.append_nil, whole]
  exact ⟨rfl, rfl⟩

theorem scanFrom_stray (bytes : bytesOf (c :: chars) = first :: rest)
    (cut : Scan.front first rest = (.stray, length)) (line : Nat) :
    Scan.scanFrom line [] (bytesOf (c :: chars)) =
      .error ⟨.unexpectedCharacter (.singleton c), line⟩ ::
        Scan.scanFrom line [] (bytesOf chars) := by
  obtain ⟨taken, left⟩ := stray_bytes bytes cut
  rw [bytes, Scan.scanFrom_cons cut, ← taken, ← left, Scan.Piece.yield, Text.Utf8.decode_bytesOf,
    ← String.singleton_eq_ofList]
  rfl

theorem scanFrom_unclosed {body : List Char} (opened : '"' ∉ body) (line : Nat) :
    Scan.scanFrom line [] (bytesOf ('"' :: body)) =
      [.error ⟨.unterminatedString, line + body.count '\n'⟩,
        .ok ⟨.eof, "", none, line + body.count '\n'⟩] := by
  have never : (bytesOf body).dropWhile (· != Scan.byte '"') = [] := by
    have whole := List.takeWhile_append_dropWhile (p := (· != '"')) (l := body)
    rw [takeWhile_other opened] at whole
    rw [agree_quote.dropWhile, List.append_right_eq_self.mp whole]
    rfl
  have lines : Scan.Piece.openString.lines (Scan.byte '"' :: bytesOf body) = body.count '\n' := by
    rw [Scan.Piece.lines_eq (by decide : Scan.Piece.openString ≠ .stray), newline_byte,
      ← Text.Utf8.bytesOf_cons_ascii (by decide), Text.Utf8.count_bytesOf (by decide)]
    rfl
  rw [Text.Utf8.bytesOf_cons_ascii (by decide), Scan.scanFrom_cons (Scan.front_open _ never),
    List.take_length, List.drop_length, lines, Scan.scanFrom]
  rfl

theorem lexed_scanFrom (line : Nat) :
    (chars : List Char) → Lexed line chars (Scan.scanFrom line [] (bytesOf chars))
  | [] => by
    rw [Text.Utf8.bytesOf_nil, Scan.scanFrom]
    exact .finish
  | c :: chars => by
    cases bytes : bytesOf (c :: chars) with
    | nil => exact absurd bytes (bytesOf_ne_nil c chars)
    | cons first rest =>
      cases cut : Scan.front first rest with
      | mk piece length =>
        by_cases opened : piece = .openString
        · subst opened
          obtain ⟨rfl, body⟩ := unclosed_found bytes cut
          rw [← bytes, scanFrom_unclosed body]
          exact .unclosed body
        by_cases stray : piece = .stray
        · subst stray
          rw [← bytes, scanFrom_stray bytes cut]
          exact .stray (unquoted_of_stray bytes cut) (no_lexeme bytes cut) (lexed_scanFrom _ chars)
        · obtain ⟨shape, text, after, split, size, longest⟩ := longest_found bytes cut opened stray
          have shorter : after.length < (c :: chars).length := by
            cases text with
            | nil => cases size
            | cons d text =>
              rw [split, List.length_append, List.length_cons]
              omega
          rw [← bytes, split, scanFrom_lexeme longest]
          exact .lexeme longest (lexed_scanFrom _ after)
termination_by chars => chars.length
decreasing_by
  · exact Nat.lt_succ_self _
  · exact shorter

theorem Lexed.unique {line : Nat} {chars : List Char} {items : List Scanned}
    (lexed : Lexed line chars items) : items = Scan.scanFrom line [] (bytesOf chars) := by
  induction lexed with
  | finish =>
    rw [Text.Utf8.bytesOf_nil, Scan.scanFrom]
    rfl
  | lexeme longest later ih => rw [scanFrom_lexeme longest, ih]
  | unclosed opened => rw [scanFrom_unclosed opened]
  | @stray line c chars items unquoted unknown later ih =>
    cases bytes : bytesOf (c :: chars) with
    | nil => exact absurd bytes (bytesOf_ne_nil c chars)
    | cons first rest =>
      cases cut : Scan.front first rest with
      | mk piece length =>
        by_cases opened : piece = .openString
        · exact absurd (unclosed_found bytes (opened ▸ cut)).1 unquoted
        by_cases stray : piece = .stray
        · rw [ih, ← bytes, scanFrom_stray bytes (stray ▸ cut)]
        · obtain ⟨shape, text, after, split, -, longest⟩ := longest_found bytes cut opened stray
          exact absurd ⟨after, split.symm⟩ (unknown longest.lexeme)

end Lexing

/-- A text yields what the token grammar says if the longest lexeme is taken each time, and nothing
    else. The end of the source is told once, last; after it every call yields nothing. -/
theorem scan_lexed (text : String) :
    (∀ items, Lexing.Lexed 1 text.toList items ↔ items = scan (Text.Utf8.encode text)) ∧
    (∃ before line, scan (Text.Utf8.encode text) = before ++ [.ok ⟨.eof, "", none, line⟩] ∧
      ∀ token, .ok token ∈ before → token.kind ≠ .eof) ∧
    (scan (Text.Utf8.encode text)).length ≤ (Text.Utf8.encode text).length + 1 ∧
    ∀ calls, ((Scanner.start (Text.Utf8.encode text)).after calls).next.1 =
      (scan (Text.Utf8.encode text))[calls]? := by
  obtain ⟨before, line, ends, inside, few⟩ := Scan.scanFrom_ends 1 (Text.Utf8.encode text)
  refine ⟨fun items => ⟨fun lexed => ?_, ?_⟩, ⟨before, line, ends, inside⟩, ?_,
    Scanner.next_after _⟩
  · rw [lexed.unique, scan, Text.Utf8.encode_eq_bytesOf]
  · rintro rfl
    rw [scan, Text.Utf8.encode_eq_bytesOf]
    exact Lexing.lexed_scanFrom 1 text.toList
  · rw [scan, ends, List.length_append]
    exact Nat.add_le_add_right few 1

end Lox
