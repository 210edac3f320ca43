import Mathlib
import Lox.Proofs.Lexing.Decoding
import Lox.Proofs.Lexing.Lexemes
import Lox.Proofs.Lexing.Stream

namespace Lox

def Token.content (token : Token) : TokenKind × String × Option Literal :=
  (token.kind, token.lexeme, token.literal?)

namespace Lexing

open Scan (White)
open Text.Utf8 (bytesOf encode)

/-- Blanks, line feeds, and comments with the line feeds that end them. -/
inductive Filler : List UInt8 → Prop where
  | nil : Filler []
  | white {b : UInt8} {rest : List UInt8} (blank : White b) (more : Filler rest) :
      Filler (b :: rest)
  | comment {body rest : List UInt8} (line : Scan.newline ∉ body) (more : Filler rest) :
      Filler (Scan.byte '/' :: Scan.byte '/' :: (body ++ Scan.newline :: rest))

/-- What stands between two tokens: it starts with a blank or a line feed. -/
def Gap (bytes : List UInt8) : Prop := Filler bytes ∧ ∃ b ∈ bytes.head?, White b

/-- The bytes are the texts of the tokens, in order, with a gap between each two. -/
inductive Spaced : List Token → List UInt8 → Prop where
  | nil : Spaced [] []
  | single {token : Token} : Spaced [token] (encode token.lexeme)
  | cons {token next : Token} {rest : List Token} {gap bytes : List UInt8} (between : Gap gap)
      (later : Spaced (next :: rest) bytes) :
      Spaced (token :: next :: rest) (encode token.lexeme ++ gap ++ bytes)

end Lexing

namespace Scan

section taken

variable {first : UInt8} {rest : List UInt8} {piece : Piece} {length : Nat}

theorem takeWhile_takeWhile (test : UInt8 → Bool) (source : List UInt8) :
    (source.takeWhile test).takeWhile test = source.takeWhile test :=
  List.takeWhile_eq_self_iff.mpr fun _ => List.mem_takeWhile_imp

theorem take_takeWhile (test : UInt8 → Bool) (source : List UInt8) :
    source.take (source.takeWhile test).length = source.takeWhile test :=
  (List.prefix_iff_eq_take.mp (source.takeWhile_prefix test)).symm

theorem ascii_of_part {b : UInt8} (part : isDigit b = true ∨ isWordPart b = true) : b < 0x80 := by
  unfold isWordPart isWordStart isDigit at part
  grind

/-- A number takes its digits, or else its digits, a point, and the digits after that. -/
theorem take_numberLength (source : List UInt8) :
    source.take (numberLength source) = source.takeWhile isDigit ∨
      ∃ (d : UInt8) (after : List UInt8), isDigit d = true ∧ source.take (numberLength source) =
        source.takeWhile isDigit ++ byte '.' :: d :: after.takeWhile isDigit := by
  have split := source.takeWhile_append_dropWhile (p := isDigit)
  match here : source.dropWhile isDigit with
  | [] | [_] =>
    left
    unfold numberLength
    rw [here]
    exact take_takeWhile isDigit source
  | point :: d :: after =>
    by_cases goes : point = byte '.' ∧ isDigit d = true
    · have length : numberLength source =
          (source.takeWhile isDigit).length + ((after.takeWhile isDigit).length + 2) := by
        unfold numberLength
        rw [here]
        dsimp only
        rw [if_pos goes]
        omega
      obtain ⟨rfl, digit⟩ := goes
      refine .inr ⟨d, after, digit, ?_⟩
      rw [length]
      conv_lhs =>
        arg 2
        rw [← split, here]
      rw [List.take_length_add_append, List.take_succ_cons, List.take_succ_cons, take_takeWhile]
    · left
      unfold numberLength
      rw [here]
      dsimp only
      rw [if_neg goes]
      exact take_takeWhile isDigit source

theorem numberLength_digits {digits : List UInt8} (all : ∀ b ∈ digits, isDigit b = true) :
    numberLength digits = digits.length := by
  unfold numberLength
  rw [List.dropWhile_eq_nil_iff.mpr all, List.takeWhile_eq_self_iff.mpr all]

theorem numberLength_point {digits after : List UInt8} {d : UInt8}
    (all : ∀ b ∈ digits, isDigit b = true) (digit : isDigit d = true)
    (later : ∀ b ∈ after, isDigit b = true) :
    numberLength (digits ++ byte '.' :: d :: after) =
      (digits ++ byte '.' :: d :: after).length := by
  have ends : isDigit (byte '.') = false := by decide
  unfold numberLength
  rw [takeWhile_seam _ _ ends, dropWhile_seam _ _ ends, List.takeWhile_eq_self_iff.mpr all,
    List.dropWhile_eq_nil_iff.mpr all, List.nil_append]
  dsimp only
  rw [if_pos ⟨rfl, digit⟩, List.takeWhile_eq_self_iff.mpr later, List.length_append,
    List.length_cons, List.length_cons]
  omega

/-- A number takes digits and points, and alone it takes all of them again. -/
theorem number_taken (source : List UInt8) :
    numberLength (source.take (numberLength source)) =
        (source.take (numberLength source)).length ∧
      ∀ b ∈ source.take (numberLength source), isDigit b = true ∨ b = byte '.' := by
  have digits (tail : List UInt8) : ∀ b ∈ tail.takeWhile isDigit, isDigit b = true := fun b =>
    List.mem_takeWhile_imp
  rcases take_numberLength source with taken | ⟨d, after, digit, taken⟩
  · rw [taken]
    exact ⟨numberLength_digits (digits source), fun b member => .inl (digits source b member)⟩
  · rw [taken]
    refine ⟨numberLength_point (digits source) digit (digits after), ?_⟩
    simp only [List.mem_append, List.mem_cons]
    rintro b (figure | rfl | rfl | figure)
    · exact .inl (digits source b figure)
    · exact .inr rfl
    · exact .inl digit
    · exact .inl (digits after b figure)

def Piece.isPlain : Piece → Bool
  | .token _ | .number | .word => true
  | _ => false

/-- A plain piece is found again from its bytes alone, which are ASCII. -/
theorem plain_taken (cut : front first rest = (piece, length)) (plain : piece.isPlain = true) :
    front first (rest.take length) = (piece, (rest.take length).length) ∧
      ∀ b ∈ first :: rest.take length, b < 0x80 := by
  -- What is not ASCII starts nothing plain.
  have ascii : first < 0x80 := by
    by_contra wide
    rw [front_strange _ (strange_of_wide (UInt8.not_lt.mp wide))] at cut
    cases cut
    cases plain
  cases lead first with
  | single found =>
    rw [front_single _ found] at cut ⊢
    cases cut
    exact ⟨rfl, List.forall_mem_singleton.mpr ascii⟩
  | equals found =>
    rw [front_equals _ found] at cut ⊢
    split at cut
    · rename_i equal
      cases cut
      rw [List.eq_cons_of_mem_head? equal]
      refine ⟨rfl, List.forall_mem_cons.mpr ⟨ascii, List.forall_mem_singleton.mpr (by decide)⟩⟩
    · cases cut
      exact ⟨rfl, List.forall_mem_singleton.mpr ascii⟩
  | white blank =>
    rw [front_white _ blank] at cut
    cases cut
    cases plain
  | newline feed =>
    rw [feed, front_newline] at cut
    cases cut
    cases plain
  | slash solidus =>
    subst solidus
    rw [front_slash] at cut ⊢
    split at cut
    · cases cut
      cases plain
    · cases cut
      exact ⟨rfl, List.forall_mem_singleton.mpr ascii⟩
  | quote mark =>
    subst mark
    cases here : rest.dropWhile (· != byte '"') with
    | nil =>
      rw [front_open _ here] at cut
      cases cut
      cases plain
    | cons found after =>
      rw [front_closed _ here] at cut
      cases cut
      cases plain
  | digit figure =>
    rw [front_digit _ figure] at cut ⊢
    cases cut
    -- A point may be among the digits, but never at the end.
    obtain ⟨again, inside⟩ := number_taken rest
    refine ⟨by rw [again], List.forall_mem_cons.mpr ⟨ascii, fun b member => ?_⟩⟩
    rcases inside b member with digit | rfl
    · exact ascii_of_part (.inl digit)
    · decide
  | word letter =>
    rw [front_word _ letter] at cut ⊢
    cases cut
    rw [take_takeWhile, takeWhile_takeWhile]
    exact ⟨rfl, List.forall_mem_cons.mpr ⟨ascii, fun b member =>
      ascii_of_part (.inr (List.mem_takeWhile_imp member))⟩⟩
  | strange unknown =>
    rw [front_strange _ unknown] at cut
    cases cut
    cases plain

theorem front_string (cut : front first rest = (.string, length)) : first = byte '"' ∧
    ∃ inside, byte '"' ∉ inside ∧ rest.take length = inside ++ [byte '"'] := by
  cases lead first with
  | single found =>
    rw [front_single _ found] at cut
    cases cut
  | equals found =>
    rw [front_equals _ found] at cut
    split at cut <;> cases cut
  | white blank =>
    rw [front_white _ blank] at cut
    cases cut
  | newline feed =>
    rw [feed, front_newline] at cut
    cases cut
  | slash solidus =>
    rw [solidus, front_slash] at cut
    split at cut <;> cases cut
  | quote mark =>
    subst mark
    have split := rest.takeWhile_append_dropWhile (p := (· != byte '"'))
    have first := rest.head?_dropWhile_not (· != byte '"')
    cases here : rest.dropWhile (· != byte '"') with
    | nil =>
      rw [front_open _ here] at cut
      cases cut
    | cons found after =>
      rw [front_closed _ here] at cut
      cases cut
      rw [here] at first split
      obtain rfl : found = byte '"' := by simpa using first
      refine ⟨rfl, rest.takeWhile (· != byte '"'), fun member => ?_, ?_⟩
      · have other := List.mem_takeWhile_imp member
        rw [bne_self_eq_false] at other
        cases other
      · conv_lhs =>
          arg 2
          rw [← split]
        rw [List.take_length_add_append, List.take_succ_cons, List.take_zero]
  | digit figure =>
    rw [front_digit _ figure] at cut
    cases cut
  | word letter =>
    rw [front_word _ letter] at cut
    cases cut
  | strange unknown =>
    rw [front_strange _ unknown] at cut
    cases cut

end taken

end Scan

namespace Lexing

open Scan (White)
open Text.Utf8 (bytesOf encode decode)

theorem utf8EncodeChar_table : ∀ n < 0x80,
    String.utf8EncodeChar (.ofNat n) = [UInt8.ofNat n] := by decide +kernel

theorem exists_bytesOf {bytes : List UInt8} (ascii : ∀ b ∈ bytes, b < 0x80) :
    ∃ chars, bytesOf chars = bytes := by
  refine ⟨bytes.map fun b => Char.ofNat b.toNat, ?_⟩
  induction bytes with
  | nil => rfl
  | cons b bytes ih =>
    obtain ⟨small, later⟩ := List.forall_mem_cons.mp ascii
    rw [List.map_cons, Text.Utf8.bytesOf_cons, ih later,
      utf8EncodeChar_table _ (UInt8.lt_iff_toNat_lt.mp small), UInt8.ofNat_toNat]
    rfl

variable {first : UInt8} {rest bytes : List UInt8} {piece : Scan.Piece} {length line : Nat}
  {token : Token}

theorem yield_on_line (yields : piece.yield bytes line = some (.ok token)) (other : Nat) :
    piece.yield bytes other = some (.ok ⟨token.kind, token.lexeme, token.literal?, other⟩) := by
  unfold Scan.Piece.yield at yields ⊢
  cases piece with
  | blank | newline | openString | stray => cases yields
  | token kind | number | word | string =>
    cases yields
    rfl

theorem yield_lexeme (yields : piece.yield bytes line = some (.ok token)) :
    token.lexeme = decode bytes := by
  unfold Scan.Piece.yield at yields
  cases piece with
  | blank | newline | openString | stray => cases yields
  | token kind | number | word | string =>
    cases yields
    rfl

def Restored (token : Token) : Prop :=
  ∃ first rest piece, Alone (.token token.kind token.literal?) token.lexeme.toList first rest piece

theorem restored_of_plain (cut : Scan.front first rest = (piece, length))
    (plain : piece.isPlain = true)
    (yields : piece.yield (first :: rest.take length) line = some (.ok token)) :
    Restored token := by
  obtain ⟨again, ascii⟩ := Scan.plain_taken cut plain
  obtain ⟨chars, bytes⟩ := exists_bytesOf ascii
  have text : token.lexeme = .ofList chars := by
    rw [yield_lexeme yields, ← bytes, Text.Utf8.decode_bytesOf]
  rw [Restored, text, String.toList_ofList]
  refine ⟨first, rest.take length, piece, bytes, again, ?_, ?_, fun other => ?_⟩
  · rintro rfl
    cases plain
  · rintro rfl
    cases plain
  · rw [bytes, yield_on_line yields other, text]
    rfl

/-- A string may not be made of the same bytes as before, but what is inside it is the same text. -/
theorem restored_of_string (cut : Scan.front first rest = (.string, length))
    (yields : Scan.Piece.string.yield (first :: rest.take length) line = some (.ok token)) :
    Restored token := by
  obtain ⟨rfl, inside, closed, taken⟩ := Scan.front_string cut
  rw [taken] at yields
  have opened : decode ([] ++ Scan.byte '"' :: (inside ++ [Scan.byte '"'])) =
      (decode []).push '"' ++ decode (inside ++ [Scan.byte '"']) :=
    Text.Utf8.decode_append_mark (by decide) [] _
  have whole : decode (Scan.byte '"' :: (inside ++ [Scan.byte '"'])) =
      .ofList ('"' :: (decode inside).toList ++ ['"']) := by
    rw [List.nil_append] at opened
    rw [opened, Text.Utf8.decode_append_mark (by decide), ← String.toList_inj,
      String.toList_ofList]
    simp [decode, Text.Utf8.Decoder.start, Text.Utf8.Decoder.finish]
  have within : ((Scan.byte '"' :: (inside ++ [Scan.byte '"'])).drop 1).dropLast = inside := by
    rw [List.drop_one, List.tail_cons, List.dropLast_concat]
  have alone := Alone.string (Text.Utf8.quote_not_mem_decode closed)
  rw [Scan.Piece.yield, within, whole] at yields
  cases yields
  rw [String.ofList_toList] at alone
  rw [Restored, String.toList_ofList]
  exact ⟨_, _, _, alone⟩

/-- Every token is found again from its text. -/
theorem restored_of_yield (cut : Scan.front first rest = (piece, length))
    (yields : piece.yield (first :: rest.take length) line = some (.ok token)) :
    Restored token := by
  by_cases plain : piece.isPlain = true
  · exact restored_of_plain cut plain yields
  · obtain rfl : piece = .string := by
      cases piece with
      | string => rfl
      | blank | newline | openString | stray => cases yields
      | token kind | number | word => exact absurd rfl plain
    exact restored_of_string cut yields

theorem scanFrom_alone {kind : TokenKind} {literal? : Option Literal} {text : List Char}
    {after : List UInt8} (alone : Alone (.token kind literal?) text first rest piece)
    (apart : ∀ b ∈ after.head?, White b) (line : Nat) :
    ∃ last, Scan.scanFrom line [] (bytesOf text ++ after) =
      .ok ⟨kind, .ofList text, literal?, last⟩ :: Scan.scanFrom last [] after := by
  have cut : Scan.front first (rest ++ after) = (piece, rest.length) := by
    cases after with
    | nil => rw [List.append_nil, alone.cut]
    | cons mark after =>
      have seen : piece ≠ .blank := by
        rintro rfl
        cases alone.yields line
      rw [← alone.cut]
      refine Scan.front_seam rest after (apart mark rfl) ?_ ?_ (.inr ?_) <;> rw [alone.cut]
      · exact alone.closed
      · exact alone.known
      · exact seen
  rw [alone.bytes, List.cons_append, Scan.scanFrom_cons cut, List.take_left, List.drop_left,
    ← alone.bytes, alone.yields]
  exact ⟨_, rfl⟩

theorem scanFrom_white {b : UInt8} (white : White b) (rest : List UInt8) (line : Nat) :
    ∃ last, Scan.scanFrom line [] (b :: rest) = Scan.scanFrom last [] rest := by
  rcases white with rfl | rfl | rfl | rfl
  · exact ⟨_, Scan.scanFrom_cons (Scan.front_white rest (.inl rfl))⟩
  · exact ⟨_, Scan.scanFrom_cons (Scan.front_white rest (.inr (.inl rfl)))⟩
  · exact ⟨_, Scan.scanFrom_cons (Scan.front_white rest (.inr (.inr rfl)))⟩
  · exact ⟨_, Scan.scanFrom_newline line rest⟩

theorem scanFrom_comment {body : List UInt8} (inside : Scan.newline ∉ body) (rest : List UInt8)
    (line : Nat) :
    ∃ last, Scan.scanFrom line []
      (Scan.byte '/' :: Scan.byte '/' :: (body ++ Scan.newline :: rest)) =
        Scan.scanFrom last [] rest := by
  have taken : (Scan.byte '/' :: body).takeWhile (· != Scan.newline) = Scan.byte '/' :: body := by
    rw [List.takeWhile_eq_self_iff]
    rintro b member
    rw [bne_iff_ne]
    rintro rfl
    rcases List.mem_cons.mp member with solidus | later
    · cases solidus
    · exact inside later
  have cut : Scan.front (Scan.byte '/') (Scan.byte '/' :: body ++ Scan.newline :: rest) =
      (.blank, (Scan.byte '/' :: body).length) := by
    rw [Scan.front_slash, List.cons_append, List.head?_cons, if_pos rfl, ← List.cons_append,
      Scan.takeWhile_seam _ _ (by decide), taken]
  rw [← List.cons_append, Scan.scanFrom_cons cut, List.drop_left, Scan.scanFrom_newline]
  exact ⟨_, rfl⟩

theorem scanFrom_filler (filler : Filler bytes) (after : List UInt8) (line : Nat) :
    ∃ last, Scan.scanFrom line [] (bytes ++ after) = Scan.scanFrom last [] after := by
  induction filler generalizing line with
  | nil => exact ⟨line, rfl⟩
  | @white b rest blank more ih =>
    obtain ⟨next, here⟩ := scanFrom_white blank (rest ++ after) line
    obtain ⟨last, later⟩ := ih next
    exact ⟨last, here.trans later⟩
  | @comment body rest ended more ih =>
    obtain ⟨next, here⟩ := scanFrom_comment ended (rest ++ after) line
    obtain ⟨last, later⟩ := ih next
    rw [List.cons_append, List.cons_append, List.append_assoc, List.cons_append]
    exact ⟨last, here.trans later⟩

theorem head_gap {gap : List UInt8} (between : Gap gap) (after : List UInt8) :
    ∀ b ∈ (gap ++ after).head?, White b := by
  obtain ⟨-, mark, first, white⟩ := between
  rw [List.eq_cons_of_mem_head? first]
  rintro _ ⟨⟩
  exact white

theorem scanFrom_spaced {tokens : List Token} (spaced : Spaced tokens bytes)
    (restored : ∀ token ∈ tokens, Restored token) (line : Nat) :
    ∃ (again : List Token) (last : Nat), Scan.scanFrom line [] bytes =
        again.map .ok ++ [.ok ⟨.eof, "", none, last⟩] ∧
      again.map Token.content = tokens.map Token.content := by
  induction spaced generalizing line with
  | nil =>
    rw [Scan.scanFrom]
    exact ⟨[], line, rfl, rfl⟩
  | @single token =>
    obtain ⟨first, rest, piece, alone⟩ := restored token List.mem_cons_self
    have apart : ∀ b ∈ ([] : List UInt8).head?, White b := by rintro _ ⟨⟩
    obtain ⟨last, here⟩ := scanFrom_alone alone apart line
    rw [List.append_nil, ← Text.Utf8.encode_eq_bytesOf, String.ofList_toList, Scan.scanFrom] at here
    exact ⟨[⟨token.kind, token.lexeme, token.literal?, last⟩], last, here, rfl⟩
  | @cons token next others gap written between later ih =>
    obtain ⟨here, there⟩ := List.forall_mem_cons.mp restored
    obtain ⟨first, rest, piece, alone⟩ := here
    obtain ⟨ended, found⟩ := scanFrom_alone alone (head_gap between written) line
    obtain ⟨started, passed⟩ := scanFrom_filler between.1 written ended
    obtain ⟨again, last, items, same⟩ := ih there started
    rw [passed, items, ← Text.Utf8.encode_eq_bytesOf, String.ofList_toList] at found
    refine ⟨⟨token.kind, token.lexeme, token.literal?, ended⟩ :: again, last, ?_, ?_⟩
    · rw [List.append_assoc, found]
      rfl
    · rw [List.map_cons, same]
      rfl

theorem restored_of_scan (line : Nat) : (source : List UInt8) →
    ∀ token, .ok token ∈ Scan.scanFrom line [] source → token.kind ≠ .eof → Restored token
  | [], token, member, other => by
    rw [Scan.scanFrom] at member
    cases List.mem_singleton.mp member
    exact absurd rfl other
  | first :: rest, token, member, other => by
    cases cut : Scan.front first rest with
    | mk piece length =>
      rw [Scan.scanFrom_cons cut] at member
      rcases List.mem_append.mp member with here | later
      · exact restored_of_yield cut (Option.mem_toList.mp here)
      · exact restored_of_scan _ (rest.drop length) token later other
termination_by source => source.length
decreasing_by simp only [List.length_drop, List.length_cons]; omega

end Lexing

theorem mem_scanTokens {source : List UInt8} {token : Token} :
    token ∈ (scanTokens source).1 ↔ .ok token ∈ scan source := by
  unfold scanTokens
  rw [List.mem_filterMap]
  constructor
  · rintro ⟨item, member, same⟩
    cases item with
    | ok other => exact Option.some.inj same ▸ member
    | error => cases same
  · exact fun member => ⟨.ok token, member, rfl⟩

theorem scanTokens_ends (source : List UInt8) : ∃ line, (scanTokens source).1 =
    (scanTokens source).1.filter (·.kind ≠ .eof) ++ [⟨.eof, "", none, line⟩] := by
  obtain ⟨before, line, items, inside, -⟩ := Scan.scanFrom_ends 1 source
  have split : ∃ found, (scanTokens source).1 = found ++ [⟨.eof, "", none, line⟩] ∧
      ∀ token ∈ found, .ok token ∈ before := by
    unfold scanTokens scan
    dsimp only
    rw [items, List.filterMap_append]
    refine ⟨_, rfl, fun token member => ?_⟩
    obtain ⟨item, listed, same⟩ := List.mem_filterMap.mp member
    cases item with
    | ok other => exact Option.some.inj same ▸ listed
    | error => cases same
  obtain ⟨found, whole, listed⟩ := split
  have others : ∀ token ∈ found, decide (token.kind ≠ .eof) = true :=
    fun token member => decide_eq_true (inside token (listed token member))
  refine ⟨line, ?_⟩
  rw [whole, List.filter_append, List.filter_eq_self.mpr others]
  simp

/-- The tokens of a source, written out with gaps between them, are scanned without errors and are
    the same tokens again, but for their lines. -/
theorem rescan_spaced {source written : List UInt8}
    (spaced : Lexing.Spaced ((scanTokens source).1.filter (·.kind ≠ .eof)) written) :
    (scanTokens written).2 = [] ∧
      (scanTokens written).1.map Token.content = (scanTokens source).1.map Token.content := by
  have restored : ∀ token ∈ (scanTokens source).1.filter (·.kind ≠ .eof),
      Lexing.Restored token := by
    intro token member
    obtain ⟨listed, other⟩ := List.mem_filter.mp member
    exact Lexing.restored_of_scan 1 source token (mem_scanTokens.mp listed)
      (of_decide_eq_true other)
  obtain ⟨line, whole⟩ := scanTokens_ends source
  obtain ⟨again, last, scanned, same⟩ := Lexing.scanFrom_spaced spaced restored 1
  rw [scanTokens_eq scanned]
  refine ⟨rfl, ?_⟩
  rw [whole, List.map_append, List.map_append, same]
  rfl

/-- A string holds an ill-formed byte, a line feed and slashes, and a stray mark stands in front of
    a slash. Written out again, the comment after the string holds the same byte. -/
theorem rescan_spaced_string :
    let source := Text.Utf8.encode "\"a" ++ 0xFF :: Text.Utf8.encode "\n//b\"@/==x"
    let written := Text.Utf8.encode "\"a\uFFFD\n//b\" //" ++ 0xFF :: Text.Utf8.encode "\n/\n== x"
    Lexing.Spaced ((scanTokens source).1.filter (·.kind ≠ .eof)) written ∧
      (scanTokens source).2 ≠ [] ∧ (scanTokens written).2 = [] ∧
      (scanTokens written).1.map Token.content = (scanTokens source).1.map Token.content := by
  intro source written
  have tokens : (scanTokens source).1.filter (·.kind ≠ .eof) =
      [⟨.string, "\"a\uFFFD\n//b\"", some (.string "a\uFFFD\n//b"), 2⟩, ⟨.slash, "/", none, 2⟩,
        ⟨.equalEqual, "==", none, 2⟩, ⟨.identifier, "x", none, 2⟩] := by cbv
  have spaced : Lexing.Spaced ((scanTokens source).1.filter (·.kind ≠ .eof)) written := by
    rw [tokens]
    have outside : Scan.newline ∉ [0xFF] := by decide
    have gap : Lexing.Gap (Text.Utf8.encode " //" ++ 0xFF :: Text.Utf8.encode "\n") :=
      ⟨.white (.inl rfl) (.comment outside .nil), _, rfl, .inl rfl⟩
    have feed : Lexing.Gap (Text.Utf8.encode "\n") :=
      ⟨.white (.inr (.inr (.inr rfl))) .nil, _, rfl, .inr (.inr (.inr rfl))⟩
    have blank : Lexing.Gap (Text.Utf8.encode " ") := ⟨.white (.inl rfl) .nil, _, rfl, .inl rfl⟩
    have pieces : written = Text.Utf8.encode "\"a\uFFFD\n//b\"" ++
        (Text.Utf8.encode " //" ++ 0xFF :: Text.Utf8.encode "\n") ++
        (Text.Utf8.encode "/" ++ Text.Utf8.encode "\n" ++
          (Text.Utf8.encode "==" ++ Text.Utf8.encode " " ++ Text.Utf8.encode "x")) := by
      decide +kernel
    rw [pieces]
    exact .cons gap (.cons feed (.cons blank .single))
  exact ⟨spaced, by decide +kernel, rescan_spaced spaced⟩

end Lox
