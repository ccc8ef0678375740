import ArmBackend.Text.Integer

/-!
Contract: the written form of string literals, shared by listings and by assembler data.

Quotes, the backslash and the five named controls are written with a backslash; every other
character outside the printable ASCII range is written by its code, in at least two hexadecimal
digits.
-/

namespace ArmBackend.Text.Literal

def encodeChar (c : Char) : List Char :=
  if c = '\'' then ['\\', '\'']
  else if c = '"' then ['\\', '"']
  else if c = '\r' then ['\\', 'r']
  else if c = '\n' then ['\\', 'n']
  else if c = '\t' then ['\\', 't']
  else if c = '\\' then ['\\', '\\']
  else if c = '\x08' then ['\\', 'b']
  else if c.val < 32 ∨ 127 ≤ c.val then '\\' :: 'x' :: hexDigits 2 c.toNat
  else [c]

def encode (text : List Char) : List Char := text.flatMap encodeChar

def escape (text : String) : String := String.ofList (encode text.toList)

def quote (text : String) : String := "\"" ++ escape text ++ "\""

end ArmBackend.Text.Literal
