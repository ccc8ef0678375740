import ArmBackend.Text.Classes
import ArmBackend.Text.Integer

/-!
Contract: characters and strings quoted for error reports.

A report shows a character so that it can be told from every other one: named controls by their
letter, characters that print nothing or attach to their neighbour by their code. The quote that
closes the text is escaped, the other one is not.
-/

namespace ArmBackend.Text.Quoted

/-- A character inside a report, between quotes of the given kind. -/
def inside (quote c : Char) : List Char :=
  if c = '\x00' then ['\\', '0']
  else if c = '\t' then ['\\', 't']
  else if c = '\n' then ['\\', 'n']
  else if c = '\r' then ['\\', 'r']
  else if c = '\\' ∨ c = quote then ['\\', c]
  else if isExtending c || isUnprintable c then
    ['\\', 'u', '\x7b'] ++ hexDigits 1 c.toNat ++ ['\x7d']
  else [c]

def char (c : Char) : String := String.ofList ('\'' :: inside '\'' c ++ ['\''])

def string (text : String) : String :=
  String.ofList ('"' :: text.toList.flatMap (inside '"') ++ ['"'])

/-- What stands at a place of a text: a character, or nothing at its end. -/
def optionalChar : Option Char → String
  | none => "None"
  | some c => "Some(" ++ char c ++ ")"

end ArmBackend.Text.Quoted
