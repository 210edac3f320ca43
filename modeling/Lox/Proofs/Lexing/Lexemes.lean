import Mathlib.Data.List.Basic
import Mathlib.Data.List.TakeWhile
import Lox.Proofs.Lexing.Fronts
import Lox.Proofs.Lexing.Bytes

namespace Lox

namespace Lexing

open Text.Utf8 (bytesOf)

def symbols : List (String × TokenKind) :=
  [("(", .leftParen), (")", .rightParen), ("\x7b", .leftBrace), ("\x7d", .rightBrace),
    (",", .comma), (".", .dot), ("-", .minus), ("+", .plus), (";", .semicolon), ("/", .slash),
    ("*", .star), ("!", .bang), ("!=", .bangEqual), ("=", .equal), ("==", .equalEqual),
    (">", .greater), (">=", .greaterEqual), ("<", .less), ("<=", .lessEqual)]

def keywords : List (String × TokenKind) :=
  [("and", .andWord), ("class", .classWord), ("else", .elseWord), ("false", .falseWord),
    ("fun", .funWord), ("for", .forWord), ("if", .ifWord), ("nil", .nilWord), ("or", .orWord),
    ("print", .printWord), ("return", .returnWord), ("super", .superWord), ("this", .thisWord),
    ("true", .trueWord), ("var", .varWord), ("while", .whileWord)]

theorem keywords_eq : TokenKind.keywords = keywords := rfl

def startsWord (c : Char) : Bool := c.isAlpha || c == '_'

def inWord (c : Char) : Bool := c.isAlphanum || c == '_'

def decimal (whole fraction : List Char) : Float :=
  .ofScientific (Nat.ofDigitChars 10 (whole ++ fraction) 0) true fraction.length

inductive Shape where
  | blank
  | comment
  | token (kind : TokenKind) (literal? : Option Literal)

inductive Lexeme : Shape → List Char → Prop where
  | blank {c : Char} (white : c ∈ [' ', '\r', '\t', '\n']) : Lexeme .blank [c]
  | comment {body : List Char} (line : '\n' ∉ body) : Lexeme .comment ('/' :: '/' :: body)
  | symbol {text : String} {kind : TokenKind} (listed : (text, kind) ∈ symbols) :
      Lexeme (.token kind none) text.toList
  | whole {first : Char} {digits : List Char} (all : ∀ c ∈ first :: digits, c.isDigit) :
      Lexeme (.token .number (some (.number (decimal (first :: digits) [])))) (first :: digits)
  | fraction {first next : Char} {digits more : List Char}
      (before : ∀ c ∈ first :: digits, c.isDigit) (after : ∀ c ∈ next :: more, c.isDigit) :
      Lexeme (.token .number (some (.number (decimal (first :: digits) (next :: more)))))
        (first :: digits ++ '.' :: next :: more)
  | keyword {word : String} {kind : TokenKind} (listed : (word, kind) ∈ keywords) :
      Lexeme (.token kind none) word.toList
  | identifier {first : Char} {rest : List Char} (start : startsWord first)
      (parts : ∀ c ∈ rest, inWord c)
      (free : .ofList (first :: rest) ∉ keywords.map Prod.fst) :
      Lexeme (.token .identifier none) (first :: rest)
  | string {body : List Char} (inside : '"' ∉ body) :
      Lexeme (.token .string (some (.string (.ofList body)))) ('"' :: body ++ ['"'])

def Shape.item? (shape : Shape) (text : List Char) (line : Nat) : Option Scanned :=
  match shape with
  | .blank | .comment => none
  | .token kind literal? => some (.ok ⟨kind, .ofList text, literal?, line⟩)

/-- A lexeme at the front of `text ++ rest` than which there is no longer one. -/
structure Longest (shape : Shape) (text rest : List Char) : Prop where
  lexeme : Lexeme shape text
  longest : ∀ {other : Shape} {longer : List Char}, Lexeme other longer →
    longer <+: text ++ rest → longer.length ≤ text.length

/-- What a source yields from `line` on: the longest lexeme is taken each time; a string without
    an end takes everything, and a character that starts no lexeme is passed over. -/
inductive Lexed : Nat → List Char → List Scanned → Prop where
  | finish {line : Nat} : Lexed line [] [.ok ⟨.eof, "", none, line⟩]
  | lexeme {line : Nat} {shape : Shape} {text rest : List Char} {items : List Scanned}
      (longest : Longest shape text rest) (later : Lexed (line + text.count '\n') rest items) :
      Lexed line (text ++ rest) ((shape.item? text (line + text.count '\n')).toList ++ items)
  | unclosed {line : Nat} {body : List Char} (opened : '"' ∉ body) :
      Lexed line ('"' :: body) [.error ⟨.unterminatedString, line + body.count '\n'⟩,
        .ok ⟨.eof, "", none, line + body.count '\n'⟩]
  | stray {line : Nat} {c : Char} {rest : List Char} {items : List Scanned}
      (unquoted : c ≠ '"')
      (unknown : ∀ {shape : Shape} {text : List Char}, Lexeme shape text → ¬ text <+: c :: rest)
      (later : Lexed line rest items) :
      Lexed line (c :: rest)
        (.error ⟨.unexpectedCharacter (.singleton c), line⟩ :: items)

theorem wide_letter {c : Char} (wide : 0x80 ≤ c.toNat) : c.isAlpha = false ∧ c.isDigit = false := by
  have value : 0x80 ≤ c.val.toNat := wide
  have letter : c.isAlpha = (decide ('A'.val ≤ c.val ∧ c.val ≤ 'Z'.val) ||
    (decide ('a'.val ≤ c.val) && decide (c.val ≤ 'z'.val))) := rfl
  have figure : c.isDigit = (decide ('0'.val ≤ c.val) && decide (c.val ≤ '9'.val)) := rfl
  rw [letter, figure]
  simp only [UInt32.le_iff_toNat_le, Char.reduceVal, UInt32.reduceToNat, Bool.or_eq_false_iff,
    Bool.and_eq_false_iff, decide_eq_false_iff_not]
  omega

theorem agree_digit : Text.Utf8.Agree Scan.isDigit Char.isDigit := by
  refine Text.Utf8.agree_of false (by decide) ?_ ?_
  · intro b wide
    unfold Scan.isDigit
    grind
  · intro c wide
    exact (wide_letter wide).2

theorem newline_byte : Scan.newline = Scan.byte '\n' := rfl

theorem agree_line : Text.Utf8.Agree (· != Scan.newline) (· != '\n') := by
  rw [newline_byte]
  exact (Text.Utf8.agree_mark (by decide)).not

theorem agree_quote : Text.Utf8.Agree (· != Scan.byte '"') (· != '"') :=
  (Text.Utf8.agree_mark (by decide)).not

theorem agree_word : Text.Utf8.Agree Scan.isWordPart inWord := by
  refine Text.Utf8.agree_of false (by decide) ?_ ?_
  · intro b wide
    unfold Scan.isWordPart Scan.isWordStart Scan.isDigit
    grind
  · intro c wide
    have plain := wide_letter wide
    rw [inWord, Char.isAlphanum, plain.1, plain.2, Bool.or_self, Bool.false_or,
      beq_eq_false_iff_ne]
    exact Text.Utf8.ne_of_wide wide (by decide)

theorem wide_start {c : Char} (wide : 0x80 ≤ c.toNat) : startsWord c = false := by
  rw [startsWord, (wide_letter wide).1, Bool.false_or, beq_eq_false_iff_ne]
  exact Text.Utf8.ne_of_wide wide (by decide)

theorem agree_start : Text.Utf8.Agree Scan.isWordStart startsWord := by
  refine Text.Utf8.agree_of false (by decide) ?_ ?_
  · intro b wide
    unfold Scan.isWordStart
    grind
  · exact fun c wide => wide_start wide

structure Alone (shape : Shape) (text : List Char) (first : UInt8) (rest : List UInt8)
    (piece : Scan.Piece) : Prop where
  bytes : bytesOf text = first :: rest
  cut : Scan.front first rest = (piece, rest.length)
  closed : piece ≠ .openString
  known : piece ≠ .stray
  yields : ∀ line, piece.yield (bytesOf text) line = shape.item? text line

theorem symbol_table : ∀ entry ∈ symbols,
    (bytesOf entry.1.toList).head?.map (fun first =>
      Scan.front first (bytesOf entry.1.toList).tail) =
        some (.token entry.2, (bytesOf entry.1.toList).tail.length) := by
  decide +kernel

theorem Alone.symbol {text : String} {kind : TokenKind} (listed : (text, kind) ∈ symbols) :
    ∃ first rest piece, Alone (.token kind none) text.toList first rest piece := by
  obtain ⟨first, head, cut⟩ := Option.map_eq_some_iff.mp (symbol_table _ listed)
  refine ⟨first, _, _, List.eq_cons_of_mem_head? head, cut, nofun, nofun, fun line => ?_⟩
  rw [Scan.Piece.yield, Text.Utf8.decode_bytesOf]
  rfl

theorem Alone.blank {c : Char} (white : c ∈ [' ', '\r', '\t', '\n']) :
    ∃ first rest piece, Alone .blank [c] first rest piece := by
  simp only [List.mem_cons, List.not_mem_nil, or_false] at white
  rcases white with rfl | rfl | rfl | rfl
  all_goals exact ⟨_, _, _, Text.Utf8.bytesOf_cons_ascii (by decide) [], rfl, by rintro ⟨⟩,
    by rintro ⟨⟩, fun _ => rfl⟩

theorem takeWhile_other {mark : Char} {chars : List Char} (inside : mark ∉ chars) :
    chars.takeWhile (· != mark) = chars := by
  rw [List.takeWhile_eq_self_iff]
  intro c member
  rw [bne_iff_ne]
  rintro rfl
  exact inside member

theorem Alone.comment {body : List Char} (line : '\n' ∉ body) :
    Alone .comment ('/' :: '/' :: body) (Scan.byte '/') (bytesOf ('/' :: body)) .blank where
  bytes := Text.Utf8.bytesOf_cons_ascii (by decide) _
  cut := by
    have inside : '\n' ∉ '/' :: body := List.not_mem_cons_of_ne_of_not_mem (by decide) line
    have again : (bytesOf ('/' :: body)).head? = some (Scan.byte '/') := rfl
    rw [Scan.front_slash, if_pos again, agree_line.takeWhile, takeWhile_other inside]
  closed := nofun
  known := nofun
  yields := fun _ => rfl

theorem Alone.string {body : List Char} (inside : '"' ∉ body) :
    Alone (.token .string (some (.string (.ofList body)))) ('"' :: body ++ ['"'])
      (Scan.byte '"') (bytesOf (body ++ ['"'])) .string where
  bytes := Text.Utf8.bytesOf_cons_ascii (by decide) _
  cut := by
    have other := List.takeWhile_eq_self_iff.mp (takeWhile_other inside)
    have taken : (body ++ ['"']).takeWhile (· != '"') = body := by
      rw [List.takeWhile_append_of_pos other]
      exact List.append_nil body
    have left : (body ++ ['"']).dropWhile (· != '"') = ['"'] := by
      rw [List.dropWhile_append_of_pos other]
      rfl
    have here : (bytesOf (body ++ ['"'])).dropWhile (· != Scan.byte '"') = [Scan.byte '"'] := by
      rw [agree_quote.dropWhile, left]
      rfl
    rw [Scan.front_closed _ here, agree_quote.takeWhile, taken, Text.Utf8.bytesOf_append,
      List.length_append]
    rfl
  closed := nofun
  known := nofun
  yields := fun line => by
    have bytes : bytesOf ('"' :: body ++ ['"']) =
        Scan.byte '"' :: bytesOf body ++ [Scan.byte '"'] := by
      rw [Text.Utf8.bytesOf_append, Text.Utf8.bytesOf_cons_ascii (by decide)]
      rfl
    have within : ((bytesOf ('"' :: body ++ ['"'])).drop 1).dropLast = bytesOf body := by
      rw [bytes, List.cons_append, List.drop_one, List.tail_cons, List.dropLast_concat]
    rw [Scan.Piece.yield, Text.Utf8.decode_bytesOf, within, Text.Utf8.decode_bytesOf]
    rfl

theorem ascii_of_start {c : Char} (start : startsWord c = true) : c.toNat < 0x80 := by
  by_contra wide
  rw [wide_start (Nat.le_of_not_lt wide)] at start
  cases start

theorem Alone.word {first : Char} {rest : List Char} (start : startsWord first = true)
    (parts : ∀ c ∈ rest, inWord c = true) :
    Alone (.token (.ofWord (.ofList (first :: rest))) none) (first :: rest) (Scan.byte first)
      (bytesOf rest) .word where
  bytes := Text.Utf8.bytesOf_cons_ascii (ascii_of_start start) _
  cut := by
    have begins : Scan.isWordStart (Scan.byte first) = true := by
      rw [agree_start.ascii (ascii_of_start start)]
      exact start
    rw [Scan.front_word _ begins, agree_word.takeWhile, List.takeWhile_eq_self_iff.mpr parts]
  closed := nofun
  known := nofun
  yields := fun line => by
    rw [Scan.Piece.yield, Text.Utf8.decode_bytesOf]
    rfl

theorem keyword_table : ∀ entry ∈ keywords,
    entry.1.toList.head?.any startsWord = true ∧ entry.1.toList.tail.all inWord = true ∧
      TokenKind.ofWord entry.1 = entry.2 := by
  decide +kernel

theorem Alone.keyword {word : String} {kind : TokenKind}
    (listed : (word, kind) ∈ keywords) :
    ∃ first rest piece, Alone (.token kind none) word.toList first rest piece := by
  obtain ⟨begins, parts, same⟩ := keyword_table _ listed
  obtain ⟨first, head, start⟩ := (Option.any_eq_true _ _).mp begins
  have alone := Alone.word start (List.all_eq_true.mp parts)
  rw [← List.eq_cons_of_mem_head? head, String.ofList_toList, same] at alone
  exact ⟨_, _, _, alone⟩

theorem ofWord_free {word : String} (free : word ∉ keywords.map Prod.fst) :
    TokenKind.ofWord word = .identifier := by
  have none : TokenKind.keywords.lookup word = none := by
    rw [keywords_eq, List.lookup_eq_none_iff]
    intro entry member
    rw [bne_iff_ne]
    rintro rfl
    exact free (List.mem_map_of_mem member)
  rw [TokenKind.ofWord, none]
  rfl

theorem ascii_of_digit {c : Char} (digit : c.isDigit = true) : c.toNat < 0x80 := by
  by_contra wide
  rw [(wide_letter (Nat.le_of_not_lt wide)).2] at digit
  cases digit

section numbers

def Ends (rest : List Char) : Prop := ∀ c ∈ rest.head?, c.isDigit = false

variable {digits rest : List Char} (all : ∀ c ∈ digits, c.isDigit = true)
include all

theorem takeWhile_digits (ends : Ends rest) :
    (bytesOf (digits ++ rest)).takeWhile Scan.isDigit = bytesOf digits := by
  have none : rest.takeWhile Char.isDigit = [] := by
    cases rest with
    | nil => rfl
    | cons c rest => exact List.takeWhile_cons_of_neg (by rw [ends c rfl]; exact Bool.false_ne_true)
  rw [agree_digit.takeWhile, List.takeWhile_append_of_pos all, none, List.append_nil]

theorem dropWhile_digits (ends : Ends rest) :
    (bytesOf (digits ++ rest)).dropWhile Scan.isDigit = bytesOf rest := by
  have whole := (bytesOf (digits ++ rest)).takeWhile_append_dropWhile (p := Scan.isDigit)
  rw [takeWhile_digits all ends] at whole
  nth_rewrite 2 [Text.Utf8.bytesOf_append] at whole
  exact List.append_cancel_left whole

theorem numberLength_whole (ends : Ends rest)
    (bare : ∀ next more, rest = '.' :: next :: more → next.isDigit = false) :
    Scan.numberLength (bytesOf (digits ++ rest)) = (bytesOf digits).length := by
  unfold Scan.numberLength
  rw [takeWhile_digits all ends, dropWhile_digits all ends]
  dsimp only
  split
  · rename_i point d after here
    split
    · rename_i goes
      obtain ⟨rfl, digit⟩ := goes
      have starts : rest.head? = some '.' := by
        rw [← Text.Utf8.head_bytesOf (by decide), here]
        rfl
      obtain ⟨more, rfl⟩ : ∃ more, rest = '.' :: more := ⟨_, List.eq_cons_of_mem_head? starts⟩
      rw [Text.Utf8.bytesOf_cons_ascii (by decide), List.cons.injEq] at here
      cases more with
      | nil => cases here.2
      | cons next more =>
        rw [agree_digit.head here.2, bare next more rfl] at digit
        cases digit
    · rfl
  · rfl

theorem numberLength_fraction {next : Char} {more : List Char}
    (after : ∀ c ∈ next :: more, c.isDigit = true) (ends : Ends rest) :
    Scan.numberLength (bytesOf (digits ++ '.' :: next :: more ++ rest)) =
      (bytesOf (digits ++ '.' :: next :: more)).length := by
  have digit := after next List.mem_cons_self
  have later : ∀ c ∈ more, c.isDigit = true := fun c member =>
    after c (List.mem_cons_of_mem _ member)
  have ascii := ascii_of_digit digit
  have point : Ends ('.' :: (next :: more ++ rest)) := by
    rintro _ ⟨⟩
    rfl
  have bytes : ∀ rest, bytesOf ('.' :: next :: rest) =
      Scan.byte '.' :: Scan.byte next :: bytesOf rest := fun rest => by
    rw [Text.Utf8.bytesOf_cons_ascii (by decide), Text.Utf8.bytesOf_cons_ascii ascii]
  unfold Scan.numberLength
  rw [List.append_assoc, List.cons_append, takeWhile_digits all point, dropWhile_digits all point,
    List.cons_append, bytes]
  dsimp only
  rw [if_pos ⟨rfl, (agree_digit.ascii ascii).trans digit⟩, takeWhile_digits later ends,
    Text.Utf8.bytesOf_append, bytes, List.length_append, List.length_cons, List.length_cons]
  omega

theorem foldl_digits (value : Nat) :
    (bytesOf digits).foldl (fun n b => 10 * n + (b.toNat - 0x30)) value =
      Nat.ofDigitChars 10 digits value := by
  induction digits generalizing value with
  | nil => rfl
  | cons c digits ih =>
    have ascii := ascii_of_digit (all c List.mem_cons_self)
    have same : (Scan.byte c).toNat = c.toNat := Text.Utf8.toNat_byte (by omega)
    rw [Text.Utf8.bytesOf_cons_ascii ascii, List.foldl_cons, Nat.ofDigitChars_cons, same,
      ih fun d member => all d (List.mem_cons_of_mem _ member)]
    rfl

theorem numberValue_whole : Scan.numberValue (bytesOf digits) = decimal digits [] := by
  have ends : Ends [] := nofun
  have taken := takeWhile_digits all ends
  have left := dropWhile_digits all ends
  rw [List.append_nil] at taken left
  unfold Scan.numberValue decimal
  rw [taken, left]
  simp only [Text.Utf8.bytesOf_nil, List.drop_nil, List.append_nil, foldl_digits all,
    List.length_nil]

theorem numberValue_fraction (after : ∀ c ∈ rest, c.isDigit = true) :
    Scan.numberValue (bytesOf (digits ++ '.' :: rest)) = decimal digits rest := by
  have point : Ends ('.' :: rest) := by
    rintro _ ⟨⟩
    rfl
  have both : ∀ c ∈ digits ++ rest, c.isDigit = true := fun c member =>
    (List.mem_append.mp member).elim (all c) (after c)
  have lengths : (bytesOf rest).length = rest.length := by
    rw [Text.Utf8.bytesOf_ascii fun c member => ascii_of_digit (after c member), List.length_map]
  unfold Scan.numberValue decimal
  rw [takeWhile_digits all point, dropWhile_digits all point,
    Text.Utf8.bytesOf_cons_ascii (by decide), List.drop_one, List.tail_cons]
  dsimp only
  rw [← Text.Utf8.bytesOf_append, foldl_digits both, lengths]

end numbers

theorem Alone.number {first : Char} {more : List Char} {value : Float}
    (figure : first.isDigit = true)
    (length : Scan.numberLength (bytesOf more) = (bytesOf more).length)
    (read : Scan.numberValue (bytesOf (first :: more)) = value) :
    Alone (.token .number (some (.number value))) (first :: more) (Scan.byte first) (bytesOf more)
      .number where
  bytes := Text.Utf8.bytesOf_cons_ascii (ascii_of_digit figure) _
  cut := by
    rw [Scan.front_digit _ ((agree_digit.ascii (ascii_of_digit figure)).trans figure), length]
  closed := nofun
  known := nofun
  yields := fun line => by
    rw [Scan.Piece.yield, Text.Utf8.decode_bytesOf, read]
    rfl

/-- Every lexeme is found as what it is. -/
theorem Lexeme.alone {shape : Shape} {text : List Char} (lexeme : Lexeme shape text) :
    ∃ first rest piece, Alone shape text first rest piece := by
  cases lexeme with
  | blank white => exact Alone.blank white
  | comment line => exact ⟨_, _, _, .comment line⟩
  | symbol listed => exact Alone.symbol listed
  | whole all =>
    obtain ⟨figure, later⟩ := List.forall_mem_cons.mp all
    have length := @numberLength_whole _ [] later nofun nofun
    rw [List.append_nil] at length
    exact ⟨_, _, _, .number figure length (numberValue_whole all)⟩
  | fraction before after =>
    obtain ⟨figure, later⟩ := List.forall_mem_cons.mp before
    have length := @numberLength_fraction _ [] later _ _ after nofun
    rw [List.append_nil] at length
    exact ⟨_, _, _, .number figure length (numberValue_fraction before after)⟩
  | keyword listed => exact Alone.keyword listed
  | identifier start parts free =>
    have alone := Alone.word start parts
    rw [ofWord_free free] at alone
    exact ⟨_, _, _, alone⟩
  | string inside => exact ⟨_, _, _, .string inside⟩

end Lexing

end Lox
