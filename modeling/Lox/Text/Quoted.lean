import Lox.Text.GraphemeExtend
import Lox.Text.Unprintable

namespace Lox.Text

def isHidden (c : Char) : Bool := unprintable.holds c || graphemeExtend.holds c

def escape (c : Char) : List Char :=
  match c with
  | '"' => ['\\', '"']
  | '\\' => ['\\', '\\']
  | '\n' => ['\\', 'n']
  | '\r' => ['\\', 'r']
  | '\t' => ['\\', 't']
  | '\x00' => ['\\', '0']
  | c =>
    if isHidden c then ['\\', 'u', '{'] ++ Nat.toDigits 16 c.toNat ++ ['}'] else [c]

def quote (name : String) : String := .ofList ('"' :: (name.toList.flatMap escape ++ ['"']))

example : quote "it's \"é\"\t日🎉" = "\"it's \\\"é\\\"\\t日🎉\"" := by decide +kernel
example : quote "e\u0301\u200b" = "\"e\\u\x7b301\x7d\\u\x7b200b\x7d\"" := by decide +kernel

end Lox.Text
