import Onisin.Lib.Json

/-!
The text of a JSON value, in compact form. Strings escape the quote, the backslash and the
control characters, and nothing else.
-/

set_option autoImplicit false

namespace Onisin.Lib

def hexDigit (n : Nat) : Char := "0123456789abcdef".toList.getD n '0'

def escapeChar (c : Char) : Text :=
  if c = '"' then ['\\', '"']
  else if c = '\\' then ['\\', '\\']
  else if c = '\n' then ['\\', 'n']
  else if c = '\r' then ['\\', 'r']
  else if c = '\t' then ['\\', 't']
  else if c.toNat = 8 then ['\\', 'b']
  else if c.toNat = 12 then ['\\', 'f']
  else if c.toNat < 32 then ['\\', 'u', '0', '0', hexDigit (c.toNat / 16), hexDigit (c.toNat % 16)]
  else [c]

def quoteText (s : Text) : Text := ['"'] ++ s.flatMap escapeChar ++ ['"']

mutual

def Json.print : Json → Text
  | .null => "null".toList
  | .bool b => (if b then "true" else "false").toList
  | .number n => n.toText
  | .string s => quoteText s
  | .array items => ['['] ++ Text.join [','] (printItems items) ++ [']']
  | .object fields => ['\x7b'] ++ Text.join [','] (printFields fields) ++ ['\x7d']

def printItems : List Json → List Text
  | [] => []
  | v :: items => v.print :: printItems items

def printFields : List (Text × Json) → List Text
  | [] => []
  | (key, v) :: fields => (quoteText key ++ [':'] ++ v.print) :: printFields fields

end

end Onisin.Lib
