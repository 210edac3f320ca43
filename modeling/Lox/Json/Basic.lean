namespace Lox

/-- A JSON value; the fields of an object stay in the order in which they were written. -/
inductive Json where
  | null
  | bool (value : Bool)
  | number (numeral : String)
  | string (text : String)
  | array (items : List Json)
  | object (fields : List (String × Json))
  deriving Inhabited, Repr

namespace Json

def nat (n : Nat) : Json := .number (Nat.repr n)

def ofOption {α : Type} (write : α → Json) : Option α → Json
  | none => .null
  | some a => write a

def hexDigit (n : Nat) : Char := Nat.digitChar (n % 16)

/-- A character inside a string: quotes, backslashes and control characters are escaped, and no
    others. -/
def escape (c : Char) : List Char :=
  match c with
  | '"' => ['\\', '"']
  | '\\' => ['\\', '\\']
  | '\x08' => ['\\', 'b']
  | '\x0c' => ['\\', 'f']
  | '\n' => ['\\', 'n']
  | '\r' => ['\\', 'r']
  | '\t' => ['\\', 't']
  | c =>
    if c.toNat < 0x20 then ['\\', 'u', '0', '0', hexDigit (c.toNat / 16), hexDigit c.toNat] else [c]

def quote (text : String) : String := .ofList ('"' :: (text.toList.flatMap escape ++ ['"']))

mutual

def compactOnto (out : String) : Json → String
  | .null => out ++ "null"
  | .bool true => out ++ "true"
  | .bool false => out ++ "false"
  | .number numeral => out ++ numeral
  | .string text => out ++ quote text
  | .array items => compactItemsOnto (out.push '[') true items |>.push ']'
  | .object fields => compactFieldsOnto (out.push '{') true fields |>.push '}'

def compactItemsOnto (out : String) (first : Bool) : List Json → String
  | [] => out
  | item :: rest =>
    compactItemsOnto (compactOnto (if first then out else out.push ',') item) false rest

def compactFieldsOnto (out : String) (first : Bool) : List (String × Json) → String
  | [] => out
  | (name, value) :: rest =>
    let named := (if first then out else out.push ',') ++ quote name
    compactFieldsOnto (compactOnto (named.push ':') value) false rest

end

def compact (value : Json) : String := compactOnto "" value

def newLine (level : Nat) : String := .ofList ('\n' :: List.replicate (2 * level) ' ')

mutual

def prettyOnto (out : String) (level : Nat) : Json → String
  | .array [] => out ++ "[]"
  | .array (item :: rest) =>
    (prettyItemsOnto (out.push '[') (level + 1) true (item :: rest) ++ newLine level).push ']'
  | .object [] => (out.push '{').push '}'
  | .object (field :: rest) =>
    (prettyFieldsOnto (out.push '{') (level + 1) true (field :: rest) ++ newLine level).push '}'
  | .null => out ++ "null"
  | .bool true => out ++ "true"
  | .bool false => out ++ "false"
  | .number numeral => out ++ numeral
  | .string text => out ++ quote text

def prettyItemsOnto (out : String) (level : Nat) (first : Bool) : List Json → String
  | [] => out
  | item :: rest =>
    let placed := (if first then out else out.push ',') ++ newLine level
    prettyItemsOnto (prettyOnto placed level item) level false rest

def prettyFieldsOnto (out : String) (level : Nat) (first : Bool) : List (String × Json) → String
  | [] => out
  | (name, value) :: rest =>
    let placed := (if first then out else out.push ',') ++ newLine level ++ quote name ++ ": "
    prettyFieldsOnto (prettyOnto placed level value) level false rest

end

def pretty (value : Json) : String := prettyOnto "" 0 value

def get (fields : List (String × Json)) (name : String) : Json := (fields.lookup name).getD .null

theorem sizeOf_get_lt (fields : List (String × Json)) (name : String) :
    sizeOf (get fields name) < sizeOf (Json.object fields) := by
  induction fields with
  | nil => simp [get]
  | cons field rest ih =>
    obtain ⟨key, value⟩ := field
    simp only [get, List.lookup_cons] at ih ⊢
    split
    · simp only [Option.getD_some, object.sizeOf_spec, List.cons.sizeOf_spec,
        Prod.mk.sizeOf_spec]
      omega
    · simp only [object.sizeOf_spec, List.cons.sizeOf_spec] at ih ⊢
      omega

example : compact (.object [("a", .array [.nat 1, .null]), ("b\n\x01", .bool true)]) =
    "\x7b\"a\":[1,null],\"b\\n\\u0001\":true\x7d" := by decide +kernel

end Json
end Lox
