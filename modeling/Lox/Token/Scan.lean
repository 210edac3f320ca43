import Lox.Diagnostic
import Lox.Text.Utf8

namespace Lox

abbrev Scanned := Except LexicalError Token

namespace Scan

def byte (c : Char) : UInt8 := c.toNat.toUInt8

def newline : UInt8 := 0x0A

def isDigit (b : UInt8) : Bool := 0x30 ≤ b && b ≤ 0x39

def isWordStart (b : UInt8) : Bool :=
  (0x61 ≤ b && b ≤ 0x7A) || (0x41 ≤ b && b ≤ 0x5A) || b == 0x5F

def isWordPart (b : UInt8) : Bool := isWordStart b || isDigit b

/-- What the front of the source is: how many of the bytes after the first one belong to it, and
    what they make. -/
inductive Piece where
  /-- Blanks and comments. -/
  | blank
  | newline
  | token (kind : TokenKind)
  | number
  | word
  /-- A string with its closing quote. -/
  | string
  | openString
  | stray
  deriving DecidableEq, Repr

/-- How many bytes follow the first byte of a character that starts no token. Only the first byte
    is looked at, so what follows may be any bytes. -/
def strayWidth (lead : UInt8) : Nat :=
  if 0xF0 ≤ lead then 3 else if 0xE0 ≤ lead then 2 else if 0xC0 ≤ lead then 1 else 0

def single? (b : UInt8) : Option TokenKind :=
  [(byte '(', TokenKind.leftParen), (byte ')', .rightParen), (byte '{', .leftBrace),
    (byte '}', .rightBrace), (byte ',', .comma), (byte '.', .dot), (byte '-', .minus),
    (byte '+', .plus), (byte ';', .semicolon), (byte '*', .star)].lookup b

/-- The token kinds that an equals sign may follow, with the kind of the two characters. -/
def withEquals? (b : UInt8) : Option (TokenKind × TokenKind) :=
  [(byte '!', (TokenKind.bang, TokenKind.bangEqual)), (byte '=', (.equal, .equalEqual)),
    (byte '<', (.less, .lessEqual)), (byte '>', (.greater, .greaterEqual))].lookup b

def numberLength (rest : List UInt8) : Nat :=
  let whole := rest.takeWhile isDigit
  match rest.dropWhile isDigit with
  | point :: d :: after =>
    -- Without a digit behind it the point is a token of its own.
    if point = byte '.' ∧ isDigit d then whole.length + 2 + (after.takeWhile isDigit).length
    else whole.length
  | _ => whole.length

/-- Looks at the source `first :: rest`: what stands at its front, and how many bytes of `rest`
    belong to it. -/
def front (first : UInt8) (rest : List UInt8) : Piece × Nat :=
  match single? first, withEquals? first with
  | some kind, _ => (.token kind, 0)
  | none, some (alone, doubled) =>
    if rest.head? = some (byte '=') then (.token doubled, 1) else (.token alone, 0)
  | none, none =>
    if first = byte ' ' ∨ first = byte '\r' ∨ first = byte '\t' then (.blank, 0)
    else if first = newline then (.newline, 0)
    else if first = byte '/' then
      if rest.head? = some (byte '/') then (.blank, (rest.takeWhile (· != newline)).length)
      else (.token .slash, 0)
    else if first = byte '"' then
      -- There are no escapes: the next quote ends the string.
      let inside := (rest.takeWhile (· != byte '"')).length
      match rest.dropWhile (· != byte '"') with
      | [] => (.openString, inside)
      | _ :: _ => (.string, inside + 1)
    else if isDigit first then (.number, numberLength rest)
    else if isWordStart first then (.word, (rest.takeWhile isWordPart).length)
    else (.stray, (rest.take (strayWidth first)).length)

def numberValue (digits : List UInt8) : Float :=
  let whole := digits.takeWhile isDigit
  let fraction := (digits.dropWhile isDigit).drop 1
  -- All digits as one whole number, scaled once, so that there is a single rounding.
  let value := (whole ++ fraction).foldl (fun n b => 10 * n + (b.toNat - 0x30)) 0
  Float.ofScientific value true fraction.length

def Piece.yield (piece : Piece) (bytes : List UInt8) (line : Nat) : Option Scanned :=
  let token (kind : TokenKind) (literal? : Option Literal) : Option Scanned :=
    some (.ok ⟨kind, Text.Utf8.decode bytes, literal?, line⟩)
  match piece with
  | .blank | .newline => none
  | .token kind => token kind none
  | .number => token .number (some (.number (numberValue bytes)))
  | .word => token (.ofWord (Text.Utf8.decode bytes)) none
  | .string => token .string (some (.string (Text.Utf8.decode (bytes.drop 1).dropLast)))
  | .openString => some (.error ⟨.unterminatedString, line⟩)
  | .stray => some (.error ⟨.unexpectedCharacter (Text.Utf8.decode bytes), line⟩)

/-- How many lines a piece ends. A stray character ends none, whatever bytes it takes. -/
def Piece.lines (piece : Piece) (bytes : List UInt8) : Nat :=
  match piece with
  | .stray => 0
  | _ => bytes.count Scan.newline

/-- What the source yields from `line` on, after what has been found before, newest first. -/
def scanFrom (line : Nat) (found : List Scanned) (source : List UInt8) : List Scanned :=
  match source with
  | [] => (.ok ⟨.eof, "", none, line⟩ :: found).reverse
  | first :: rest =>
    let (piece, length) := front first rest
    let bytes := first :: rest.take length
    let line := line + piece.lines bytes
    let found :=
      match piece.yield bytes line with
      | some item => item :: found
      | none => found
    scanFrom line found (rest.drop length)
termination_by source.length
decreasing_by simp only [List.length_drop, List.length_cons]; omega

end Scan

def scan (source : List UInt8) : List Scanned := Scan.scanFrom 1 [] source

def scanTokens (source : List UInt8) : List Token × List LexicalError :=
  let items := scan source
  (items.filterMap fun | .ok token => some token | .error _ => none,
    items.filterMap fun | .ok _ => none | .error error => some error)

example : (scanTokens (Text.Utf8.encode "a<=1.5.\n\"b\" // c\n!")).1.map Token.text =
    ["IDENTIFIER a null", "LESS_EQUAL <= null", "NUMBER 1.5 1.5", "DOT . null", "STRING \"b\" b",
      "BANG ! null", "EOF  null"] := by decide +kernel

end Lox
