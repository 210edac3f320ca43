namespace Lox

structure Decimal where
  digits : Nat
  exponent : Int
  deriving DecidableEq, Repr

namespace Decimal

/-- A double taken apart. A finite one is `significand * 2 ^ exponent`, up to its sign. -/
inductive Binary where
  | notANumber
  | infinite (negative : Bool)
  | finite (negative : Bool) (significand : Nat) (exponent : Int)
  deriving DecidableEq, Repr

def Binary.leastExponent : Int := -1074

/-- The significand of the least normal double with a given exponent: a power of two, so its
    neighbour below is only half as far away as its neighbour above. -/
def Binary.leastNormal : Nat := Nat.pow 2 52

def Binary.ofFloat (x : Float) : Binary :=
  let bits := x.toBits.toNat
  let negative := decide (Nat.pow 2 63 ≤ bits)
  let biased := bits / Nat.pow 2 52 % Nat.pow 2 11
  let fraction := bits % Nat.pow 2 52
  if biased = 2047 then
    if fraction = 0 then .infinite negative else .notANumber
  else if biased = 0 then .finite negative fraction leastExponent
  else .finite negative (leastNormal + fraction) (leastExponent + (biased - 1 : Nat))

def whole? (significand : Nat) (exponent : Int) : Option Nat :=
  match exponent with
  | .ofNat e => some (significand * Nat.pow 2 e)
  | .negSucc e =>
    if significand % Nat.pow 2 (e + 1) = 0 then some (significand / Nat.pow 2 (e + 1)) else none

inductive Tie where
  | up
  | even
  deriving DecidableEq, Repr

/-- The interval of real numbers that round to a double, and the double itself, as fractions with
    one common denominator. The ends belong to it if `closed`. -/
structure Interval where
  low : Nat
  value : Nat
  high : Nat
  denominator : Nat
  closed : Bool
  deriving DecidableEq, Repr

/-- The interval of `significand * 2 ^ exponent`: half way to each neighbour. Ties between doubles
    go to the even significand, which therefore owns the ends. -/
def Interval.of (significand : Nat) (exponent : Int) : Interval :=
  let below :=
    if significand = Binary.leastNormal ∧ exponent ≠ Binary.leastExponent then 1 else 2
  -- Counted in quarters of the last place, in which both ends are whole.
  let scale := Nat.pow 2 (exponent - 2).toNat
  { low := (4 * significand - below) * scale
    value := 4 * significand * scale
    high := (4 * significand + 2) * scale
    denominator := Nat.pow 2 (2 - exponent).toNat
    closed := significand % 2 == 0 }

def Interval.inUnits (i : Interval) (exponent : Int) : Interval :=
  let up := Nat.pow 10 (-exponent).toNat
  { i with
    low := i.low * up
    value := i.value * up
    high := i.high * up
    denominator := i.denominator * Nat.pow 10 exponent.toNat }

def Interval.holds (i : Interval) (n : Nat) : Bool :=
  if i.closed then i.low ≤ n * i.denominator && n * i.denominator ≤ i.high
  else i.low < n * i.denominator && n * i.denominator < i.high

/-- The whole number of the interval nearest to its value, if it holds one at all: then it holds
    one of the value's two neighbours. -/
def Interval.nearest? (i : Interval) (tie : Tie) : Option Nat :=
  let floor := i.value / i.denominator
  match i.holds floor, i.holds (floor + 1) with
  | false, false => none
  | true, false => some floor
  | false, true => some (floor + 1)
  | true, true =>
    match compare (2 * i.value) ((2 * floor + 1) * i.denominator) with
    | .lt => some floor
    | .gt => some (floor + 1)
    | .eq =>
      match tie with
      | .up => some (floor + 1)
      | .even => some (if floor % 2 = 0 then floor else floor + 1)

def digitCount (n : Nat) : Nat := (Nat.toDigits 10 n).length

/-- The `k` with `10 ^ (k - 1) ≤ value < 10 ^ k`. -/
def Interval.magnitude (i : Interval) : Int :=
  if i.denominator ≤ i.value then digitCount (i.value / i.denominator)
  else 1 - digitCount ((i.denominator - 1) / i.value)

/-- The digit counts to try: no double needs more than seventeen. -/
def digitCounts : List Nat := List.range' 1 17

def shortest (tie : Tie) (significand : Nat) (exponent : Int) : Decimal :=
  if significand = 0 then ⟨0, 0⟩
  else
    let i := Interval.of significand exponent
    let k := i.magnitude
    let found := digitCounts.findSome? fun (p : Nat) =>
      ((i.inUnits (k - p)).nearest? tie).map fun n =>
        -- Rounding up has carried into a new leading digit.
        if n = Nat.pow 10 p then ⟨1, k⟩ else ⟨n, k - p⟩
    found.getD ⟨(i.inUnits (k - 17)).value / (i.inUnits (k - 17)).denominator, k - 17⟩

end Decimal
end Lox
