import Lox.Json.Basic
import Lox.Json.Numeral

namespace Lox.Json

/-- An array or object that is still open, with what it holds so far, the newest first. -/
inductive Open where
  | array (items : List Json)
  | object (fields : List (String × Json))
  | field (fields : List (String × Json)) (name : String)

inductive Expected where
  | value
  /-- The first value of an array, or its end. -/
  | firstItem
  /-- The first name of an object, or its end. -/
  | firstName
  | name
  | colon
  /-- A comma or the end of what encloses the value just read. -/
  | next
  deriving DecidableEq

inductive Reading where
  | between
  /-- A literal or numeral, its characters newest first. -/
  | word (chars : List Char)
  | text (sofar : String)
  | escape (sofar : String)
  /-- The digits of an escaped unit, after the first half of a pair if there was one. -/
  | unit (sofar : String) (high? : Option Nat) (digits : Nat) (bits : Nat)
  /-- The first half of a pair has been read; a backslash has to follow, and then a `u`. -/
  | half (sofar : String) (high : Nat) (slash : Bool)

structure Reader where
  stack : List Open
  expected : Expected
  reading : Reading
  root? : Option Json

namespace Reader

def start : Reader := ⟨[], .value, .between, none⟩

def put (r : Reader) (value : Json) : Option Reader :=
  if r.expected = .value ∨ r.expected = .firstItem then
    match r.stack with
    | [] => some { r with expected := .next, reading := .between, root? := some value }
    | .array items :: outer =>
      some { r with stack := .array (value :: items) :: outer, expected := .next,
                    reading := .between }
    | .field fields name :: outer =>
      some { r with stack := .object ((name, value) :: fields) :: outer, expected := .next,
                    reading := .between }
    | .object _ :: _ => none
  else none

def putText (r : Reader) (text : String) : Option Reader :=
  if r.expected = .name ∨ r.expected = .firstName then
    match r.stack with
    | .object fields :: outer =>
      some { r with stack := .field fields text :: outer, expected := .colon, reading := .between }
    | _ => none
  else r.put (.string text)

def wordValue? (word : String) : Option Json :=
  if word = "null" then some .null
  else if word = "true" then some (.bool true)
  else if word = "false" then some (.bool false)
  else (Numeral.ofText? word).map fun _ => .number word

def isWordChar (c : Char) : Bool := c.isAlphanum || c == '+' || c == '-' || c == '.'

def punctuation (r : Reader) (c : Char) : Option Reader :=
  match c, r.expected, r.stack with
  | ' ', _, _ | '\t', _, _ | '\n', _, _ | '\r', _, _ => some r
  | ',', .next, .array _ :: _ => some { r with expected := .value }
  | ',', .next, .object _ :: _ => some { r with expected := .name }
  | ':', .colon, _ => some { r with expected := .value }
  | ']', .next, .array items :: outer =>
    { r with stack := outer, expected := .value }.put (.array items.reverse)
  | ']', .firstItem, .array _ :: outer =>
    { r with stack := outer, expected := .value }.put (.array [])
  | '}', .next, .object fields :: outer =>
    { r with stack := outer, expected := .value }.put (.object fields.reverse)
  | '}', .firstName, .object _ :: outer =>
    { r with stack := outer, expected := .value }.put (.object [])
  | '[', .value, stack | '[', .firstItem, stack =>
    some { r with stack := .array [] :: stack, expected := .firstItem }
  | '{', .value, stack | '{', .firstItem, stack =>
    some { r with stack := .object [] :: stack, expected := .firstName }
  | '"', _, _ => some { r with reading := .text "" }
  | c, _, _ => if isWordChar c then some { r with reading := .word [c] } else none

def hexValue? (c : Char) : Option Nat :=
  if '0' ≤ c ∧ c ≤ '9' then some (c.toNat - '0'.toNat)
  else if 'a' ≤ c ∧ c ≤ 'f' then some (c.toNat - 'a'.toNat + 10)
  else if 'A' ≤ c ∧ c ≤ 'F' then some (c.toNat - 'A'.toNat + 10)
  else none

/-- The four digits of a unit have been read. Characters past 0xFFFF take a pair of units. -/
def putUnit (r : Reader) (sofar : String) (high? : Option Nat) (bits : Nat) : Option Reader :=
  match high? with
  | some high =>
    if 0xDC00 ≤ bits ∧ bits ≤ 0xDFFF then
      let code := 0x10000 + 0x400 * (high - 0xD800) + (bits - 0xDC00)
      some { r with reading := .text (sofar.push (Char.ofNat code)) }
    else none
  | none =>
    if 0xD800 ≤ bits ∧ bits ≤ 0xDBFF then some { r with reading := .half sofar bits false }
    else if 0xDC00 ≤ bits ∧ bits ≤ 0xDFFF then none
    else some { r with reading := .text (sofar.push (Char.ofNat bits)) }

def escaped? (c : Char) : Option Char :=
  match c with
  | '"' | '\\' | '/' => some c
  | 'b' => some '\x08'
  | 'f' => some '\x0c'
  | 'n' => some '\n'
  | 'r' => some '\r'
  | 't' => some '\t'
  | _ => none

def closeWord (r : Reader) : Option Reader :=
  match r.reading with
  | .word chars =>
    (wordValue? (.ofList chars.reverse)).bind { r with reading := .between }.put
  | _ => some r

def feed (r : Reader) (c : Char) : Option Reader :=
  match r.reading with
  | .between => r.punctuation c
  | .word chars =>
    if isWordChar c then some { r with reading := .word (c :: chars) }
    else r.closeWord.bind (·.punctuation c)
  | .text sofar =>
    match c with
    | '"' => { r with reading := .between }.putText sofar
    | '\\' => some { r with reading := .escape sofar }
    | c => if c.toNat < 0x20 then none else some { r with reading := .text (sofar.push c) }
  | .escape sofar =>
    if c = 'u' then some { r with reading := .unit sofar none 0 0 }
    else (escaped? c).map fun c => { r with reading := .text (sofar.push c) }
  | .unit sofar high? digits bits => do
    let bits := 16 * bits + (← hexValue? c)
    if digits < 3 then some { r with reading := .unit sofar high? (digits + 1) bits }
    else r.putUnit sofar high? bits
  | .half sofar high slash =>
    match slash, c with
    | false, '\\' => some { r with reading := .half sofar high true }
    | true, 'u' => some { r with reading := .unit sofar (some high) 0 0 }
    | _, _ => none

def finish (r : Reader) : Option Json := do
  let r ← r.closeWord
  match r.stack, r.expected, r.reading with
  | [], .next, .between => r.root?
  | _, _, _ => none

end Reader

def ofText? (text : String) : Option Json := do (← text.toList.foldlM Reader.feed .start).finish

example :
    (ofText? " [1, -0.0 ,\"a\\u00e9\\ud83c\\udf89\", [], \x7b\"k\": \x7b\x7d\x7d] ").map compact =
      some "[1,-0.0,\"aé🎉\",[],\x7b\"k\":\x7b\x7d\x7d]" := by decide +kernel
example :
    ["[1,]", "[1", "1 2", "\"\\ud83c\"", "01", "\x7b\"a\" 1\x7d"].all
      (fun s => (ofText? s).isNone) := by decide +kernel

end Lox.Json
