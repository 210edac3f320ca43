import Lox.Decimal.Shortest

namespace Lox

def Decimal.digitChars (d : Decimal) : List Char := Nat.toDigits 10 d.digits

def Decimal.leadingPower (d : Decimal) : Int := d.exponent + d.digitChars.length - 1

/-- The number without an exponent: zeros fill up to the point, on either side of it. -/
def Decimal.positional (d : Decimal) : String :=
  let digits := d.digitChars
  match d.exponent with
  | .ofNat zeros => .ofList (digits ++ List.replicate zeros '0')
  | .negSucc below =>
    let places := below + 1
    let whole := digits.take (digits.length - places)
    let fraction :=
      List.replicate (places - digits.length) '0' ++ digits.drop (digits.length - places)
    .ofList ((if whole.isEmpty then ['0'] else whole) ++ '.' :: fraction)

def Decimal.scientific (d : Decimal) : String :=
  let power := d.leadingPower
  let exponent := (if power < 0 then "e-" else "e+") ++ Nat.repr power.natAbs
  match d.digitChars with
  | [] => exponent
  | [digit] => .ofList [digit] ++ exponent
  | digit :: more => .ofList (digit :: '.' :: more) ++ exponent

/-- What an output decides about its numbers. -/
structure NumberStyle where
  notANumber : String
  /-- Infinity; the flag says that it is negative. -/
  infinity : Bool → String
  /-- A negative zero keeps its sign. -/
  signedZero : Bool
  /-- The whole numbers that show every digit; all others are cut to the shortest decimal. -/
  showsAllDigits : Nat → Bool
  /-- Follows a whole number that shows every digit. -/
  wholeMark : String
  /-- Follows a whole number cut to the shortest decimal. -/
  shortMark : String
  /-- The powers of the leading digit at which a shortest decimal is written without exponent. -/
  isPositional : Int → Bool
  tie : Decimal.Tie

namespace NumberStyle

def writeShort (s : NumberStyle) (d : Decimal) : String :=
  if s.isPositional d.leadingPower then
    d.positional ++ if 0 ≤ d.exponent then s.shortMark else ""
  else d.scientific

def writeMagnitude (s : NumberStyle) (significand : Nat) (exponent : Int) : String :=
  match Decimal.whole? significand exponent with
  | some n =>
    if s.showsAllDigits n then Nat.repr n ++ s.wholeMark
    else s.writeShort (.shortest s.tie significand exponent)
  | none => s.writeShort (.shortest s.tie significand exponent)

def write (s : NumberStyle) (x : Float) : String :=
  match Decimal.Binary.ofFloat x with
  | .notANumber => s.notANumber
  | .infinite negative => s.infinity negative
  | .finite negative significand exponent =>
    let sign := if negative && (s.signedZero || significand != 0) then "-" else ""
    sign ++ s.writeMagnitude significand exponent

/-- A printed value: whole numbers show every digit and no point, all others are shortest decimals
    without exponent. -/
def printed : NumberStyle where
  notANumber := "NaN"
  infinity negative := if negative then "-Infinity" else "Infinity"
  signedZero := true
  showsAllDigits _ := true
  wholeMark := ""
  shortMark := ""
  isPositional _ := true
  tie := .up

/-- A literal in a printed tree: as a printed value, but a whole number ends in `.0`. -/
def inTree : NumberStyle :=
  { printed with
    infinity := fun negative => if negative then "-inf" else "inf"
    wholeMark := ".0" }

/-- A token's literal: whole numbers below 10^15 show every digit, end in `.0` and have no negative
    zero; all other numbers are shortest decimals without exponent. -/
def inToken : NumberStyle :=
  { inTree with
    signedZero := false
    showsAllDigits := fun n => decide (n < Nat.pow 10 15) }

/-- A JSON number: shortest decimals, with an exponent from 10^16 on and below 10^-5; what JSON
    cannot write is null. -/
def json : NumberStyle where
  notANumber := "null"
  infinity _ := "null"
  signedZero := true
  showsAllDigits _ := false
  wholeMark := ""
  shortMark := ".0"
  isPositional power := decide (-5 ≤ power ∧ power < 16)
  tie := .even

end NumberStyle

example : [0.1, 1e23, -0.0, 5e-7].map NumberStyle.printed.write =
    ["0.1", "99999999999999991611392", "-0", "0.0000005"] := by decide +kernel
example : [3, 1e23, 2.5].map NumberStyle.inTree.write =
    ["3.0", "99999999999999991611392.0", "2.5"] := by decide +kernel
example : [3, 1e23, 999999999999999, 1e15].map NumberStyle.inToken.write =
    ["3.0", "100000000000000000000000", "999999999999999.0", "1000000000000000"] := by
  decide +kernel
example : [1, 1e-5, 1.5e-7, 1e15, 1e16, 1.7976931348623157e308].map NumberStyle.json.write =
    ["1.0", "0.00001", "1.5e-7", "1000000000000000.0", "1e+16", "1.7976931348623157e+308"] := by
  decide +kernel

end Lox
