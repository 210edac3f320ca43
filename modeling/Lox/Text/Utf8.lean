namespace Lox.Text.Utf8

def replacement : Char := '\uFFFD'

/-- A character whose first bytes have been read: its bits so far, how many more bytes it takes
    (one fewer than `more + 1`), and the bounds that the next one must keep. -/
structure Pending where
  bits : Nat
  more : Nat
  low : UInt8
  high : UInt8
  deriving DecidableEq

/-- How a character that starts with `byte` goes on, for a byte from 0x80 up. Overlong forms,
    surrogates and code points past 0x10FFFF are shut out by the bounds on the second byte. -/
def Pending.ofLead? (byte : UInt8) : Option Pending :=
  if 0xC2 ≤ byte ∧ byte ≤ 0xDF then some ⟨byte.toNat - 0xC0, 0, 0x80, 0xBF⟩
  else if byte = 0xE0 then some ⟨0, 1, 0xA0, 0xBF⟩
  else if byte = 0xED then some ⟨0xD, 1, 0x80, 0x9F⟩
  else if 0xE1 ≤ byte ∧ byte ≤ 0xEF then some ⟨byte.toNat - 0xE0, 1, 0x80, 0xBF⟩
  else if byte = 0xF0 then some ⟨0, 2, 0x90, 0xBF⟩
  else if 0xF1 ≤ byte ∧ byte ≤ 0xF3 then some ⟨byte.toNat - 0xF0, 2, 0x80, 0xBF⟩
  else if byte = 0xF4 then some ⟨4, 2, 0x80, 0x8F⟩
  else none

/-- The text read so far and the character that is still open, if one is. -/
structure Decoder where
  text : String
  open? : Option Pending
  deriving DecidableEq

def Decoder.start : Decoder := ⟨"", none⟩

def Decoder.lead (text : String) (byte : UInt8) : Decoder :=
  if byte < 0x80 then ⟨text.push (Char.ofNat byte.toNat), none⟩
  else
    match Pending.ofLead? byte with
    | some pending => ⟨text, some pending⟩
    | none => ⟨text.push replacement, none⟩

def Decoder.feed (d : Decoder) (byte : UInt8) : Decoder :=
  match d.open? with
  | none => .lead d.text byte
  | some p =>
    if p.low ≤ byte ∧ byte ≤ p.high then
      let bits := 64 * p.bits + (byte.toNat - 0x80)
      match p.more with
      | 0 => ⟨d.text.push (Char.ofNat bits), none⟩
      | more + 1 => ⟨d.text, some ⟨bits, more, 0x80, 0xBF⟩⟩
    else .lead (d.text.push replacement) byte

def Decoder.finish (d : Decoder) : String :=
  match d.open? with
  | none => d.text
  | some _ => d.text.push replacement

def decode (bytes : List UInt8) : String := (bytes.foldl Decoder.feed .start).finish

def decode? (bytes : List UInt8) : Option String := String.fromUTF8? ⟨bytes.toArray⟩

def encode (text : String) : List UInt8 := text.toUTF8.data.toList

example : decode [0x61, 0xC3, 0xA9, 0xF0, 0x9F, 0x8E, 0x89] = "aé🎉" := by decide +kernel
example : decode [0xF0, 0x9F, 0x8E, 0x41, 0xED, 0xA0, 0x80] = "\uFFFDA\uFFFD\uFFFD\uFFFD" := by
  decide +kernel

end Lox.Text.Utf8
