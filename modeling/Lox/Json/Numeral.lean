namespace Lox.Json

structure Numeral where
  negative : Bool
  digits : Nat
  exponent : Int
  isWhole : Bool
  deriving DecidableEq, Repr

namespace Numeral

def value (digits : List Char) : Nat := digits.foldl (fun n c => 10 * n + (c.toNat - '0'.toNat)) 0

/-- Whole part and fraction, before any power of ten. No whole part starts with a needless zero. -/
def mantissa? (negative : Bool) (text : List Char) : Option Numeral :=
  let (whole, rest) := text.span Char.isDigit
  if whole.isEmpty || (whole.length != 1 && whole.head? == some '0') then none
  else
    match rest with
    | [] => some ⟨negative, value whole, 0, true⟩
    | '.' :: fraction =>
      if fraction.isEmpty || !fraction.all Char.isDigit then none
      else some ⟨negative, value (whole ++ fraction), -fraction.length, false⟩
    | _ => none

def power? (text : List Char) : Option Int :=
  let (negative, digits) :=
    match text with
    | '-' :: digits => (true, digits)
    | '+' :: digits => (false, digits)
    | digits => (false, digits)
  if digits.isEmpty || !digits.all Char.isDigit then none
  else some (if negative then -(value digits : Int) else value digits)

def ofText? (text : String) : Option Numeral :=
  let (negative, unsigned) :=
    match text.toList with
    | '-' :: unsigned => (true, unsigned)
    | unsigned => (false, unsigned)
  let (mantissa, scaled) := unsigned.span fun c => c != 'e' && c != 'E'
  match scaled with
  | [] => mantissa? negative mantissa
  | _ :: power => do
    let n ← mantissa? negative mantissa
    let p ← power? power
    some { n with exponent := n.exponent + p, isWhole := false }

def toFloat (n : Numeral) : Float :=
  let magnitude := Float.ofScientific n.digits (decide (n.exponent < 0)) n.exponent.natAbs
  if n.negative then -magnitude else magnitude

def toNat? (n : Numeral) : Option Nat := if n.isWhole && !n.negative then some n.digits else none

end Numeral

example : (Numeral.ofText? "-12.50e3").map (fun n => (n.negative, n.digits, n.exponent)) =
    some (true, 1250, 1) := by decide +kernel

end Lox.Json
