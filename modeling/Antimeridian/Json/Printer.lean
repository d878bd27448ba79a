import Antimeridian.Json.Value

/-!
# Writing JSON

`Value.compact` writes a value without blanks, and `Value.pretty` puts every element and member on a
line of its own, two spaces further in than what it belongs to.
-/

namespace Antimeridian.Json

/-- A hexadecimal digit. -/
def hexDigit (n : Nat) : Char := n.digitChar

/-- A character inside a string literal. -/
def escaped (c : Char) : List Char :=
  if c = '"' then ['\\', '"']
  else if c = '\\' then ['\\', '\\']
  else if c.toNat < 0x20 then
    ['\\', 'u', '0', '0', hexDigit (c.toNat / 16), hexDigit (c.toNat % 16)]
  else [c]

/-- A string literal.  A string that stands for no text is written as half a surrogate pair. -/
def quoted : Option (List Char) → List Char
  | some s => '"' :: (s.flatMap escaped ++ ['"'])
  | none => "\"\\ud800\"".toList

/-- The texts with a separator between them. -/
def separated (separator : List Char) : List (List Char) → List Char
  | [] => []
  | [t] => t
  | t :: rest => t ++ separator ++ separated separator rest

namespace Value

mutual
/-- The text of a value without blanks. -/
def compact : Value → List Char
  | .null => "null".toList
  | .bool true => "true".toList
  | .bool false => "false".toList
  | .number n => n.text
  | .string s => quoted s
  | .array values => '[' :: (separated [','] (compactElements values) ++ [']'])
  | .object members => '\x7b' :: (separated [','] (compactMembers members) ++ ['\x7d'])

/-- The texts of the elements of an array. -/
def compactElements : List Value → List (List Char)
  | [] => []
  | v :: rest => v.compact :: compactElements rest

/-- The texts of the members of an object. -/
def compactMembers : List (Option (List Char) × Value) → List (List Char)
  | [] => []
  | (name, v) :: rest => (quoted name ++ ':' :: v.compact) :: compactMembers rest
end

/-- A new line that begins `depth` steps further in. -/
def newline (depth : Nat) : List Char := '\n' :: List.replicate (2 * depth) ' '

/-- Brackets around texts that have a line each; nothing stands between them when there are none. -/
def block (depth : Nat) (opening closing : Char) (texts : List (List Char)) : List Char :=
  if texts.isEmpty then [opening, closing]
  else
    opening :: (newline (depth + 1) ++ separated (',' :: newline (depth + 1)) texts
      ++ newline depth ++ [closing])

mutual
/-- The text of a value over several lines, `depth` steps in. -/
def prettyAt (depth : Nat) : Value → List Char
  | .null => "null".toList
  | .bool true => "true".toList
  | .bool false => "false".toList
  | .number n => n.text
  | .string s => quoted s
  | .array values => block depth '[' ']' (prettyElements (depth + 1) values)
  | .object members => block depth '\x7b' '\x7d' (prettyMembers (depth + 1) members)

/-- The texts of the elements of an array. -/
def prettyElements (depth : Nat) : List Value → List (List Char)
  | [] => []
  | v :: rest => v.prettyAt depth :: prettyElements depth rest

/-- The texts of the members of an object. -/
def prettyMembers (depth : Nat) : List (Option (List Char) × Value) → List (List Char)
  | [] => []
  | (name, v) :: rest => (quoted name ++ ':' :: ' ' :: v.prettyAt depth) :: prettyMembers depth rest
end

/-- The text of a value over several lines. -/
def pretty (v : Value) : List Char := v.prettyAt 0

end Value

end Antimeridian.Json
