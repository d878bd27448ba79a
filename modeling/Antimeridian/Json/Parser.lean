import Antimeridian.Json.Value

/-!
# Reading JSON

A strict reader: no comments, no trailing commas, no leading zeros, nothing but blanks around the
value.  Each reader takes the characters ahead and returns what it read with the characters after
it.
-/

namespace Antimeridian.Json

/-- The characters ahead. -/
abbrev Input := List Char

/-- The white space of JSON. -/
def isBlank (c : Char) : Bool := c = ' ' || c = '\n' || c = '\t' || c = '\r'

/-- The input after any blanks. -/
def skipBlanks (input : Input) : Input := input.dropWhile isBlank

/-- The input after a fixed text, which has to stand there. -/
def skipText : List Char → Input → Option Input
  | [], input => some input
  | c :: text, d :: input => if c = d then skipText text input else none
  | _ :: _, [] => none

/-! ### Numbers -/

/-- One or more digits. -/
def readDigits (input : Input) : Option (List Char × Input) :=
  let digits := input.takeWhile Char.isDigit
  if digits.isEmpty then none else some (digits, input.dropWhile Char.isDigit)

/-- The digits before the point, where a zero stands alone. -/
def readWhole : Input → Option (List Char × Input)
  | '0' :: rest => some (['0'], rest)
  | input => readDigits input

/-- A point and digits, or nothing. -/
def readFraction : Input → Option (Option (List Char) × Input)
  | '.' :: rest => (readDigits rest).map fun (digits, rest) => (some digits, rest)
  | input => some (none, input)

/-- The sign and the digits of an exponent. -/
def readExponentDigits : Input → Option (Exponent × Input)
  | '-' :: rest => (readDigits rest).map fun (digits, rest) => (⟨true, digits⟩, rest)
  | '+' :: rest => (readDigits rest).map fun (digits, rest) => (⟨false, digits⟩, rest)
  | input => (readDigits input).map fun (digits, rest) => (⟨false, digits⟩, rest)

/-- An exponent, or nothing. -/
def readExponent : Input → Option (Option Exponent × Input)
  | 'e' :: rest | 'E' :: rest => (readExponentDigits rest).map fun (e, rest) => (some e, rest)
  | input => some (none, input)

/-- A number after its sign. -/
def readUnsigned (negative : Bool) (input : Input) : Option (Numeral × Input) := do
  let (whole, rest) ← readWhole input
  let (fraction, rest) ← readFraction rest
  let (exponent, rest) ← readExponent rest
  return (⟨negative, whole, fraction, exponent⟩, rest)

/-- A number. -/
def readNumeral : Input → Option (Numeral × Input)
  | '-' :: rest => readUnsigned true rest
  | input => readUnsigned false input

/-! ### Strings -/

/-- The value of a hexadecimal digit. -/
def hexValue (c : Char) : Option Nat :=
  if c.isDigit then some (c.toNat - '0'.toNat)
  else if 'a' ≤ c && c ≤ 'f' then some (c.toNat - 'a'.toNat + 10)
  else if 'A' ≤ c && c ≤ 'F' then some (c.toNat - 'A'.toNat + 10)
  else none

/-- The value of four hexadecimal digits. -/
def hexWord (a b c d : Char) : Option Nat := do
  return 16 * (16 * (16 * (← hexValue a) + (← hexValue b)) + (← hexValue c)) + (← hexValue d)

/-- The character that a short escape stands for. -/
def shortEscape : Char → Option Char
  | '"' => some '"'
  | '\\' => some '\\'
  | '/' => some '/'
  | 'b' => some '\x08'
  | 'f' => some '\x0c'
  | 'n' => some '\n'
  | 'r' => some '\r'
  | 't' => some '\t'
  | _ => none

/-- The code units of a string literal after its opening quote: the code point of a plain character,
or the number in an escape. -/
def readUnits : Input → Option (List Nat × Input)
  | '"' :: rest => some ([], rest)
  | '\\' :: 'u' :: a :: b :: c :: d :: rest => do
    let unit ← hexWord a b c d
    let (units, rest) ← readUnits rest
    return (unit :: units, rest)
  | '\\' :: c :: rest => do
    let c ← shortEscape c
    let (units, rest) ← readUnits rest
    return (c.toNat :: units, rest)
  | c :: rest =>
    if c.toNat < 0x20 || c = '\\' then none
    else do
      let (units, rest) ← readUnits rest
      return (c.toNat :: units, rest)
  | [] => none

/-- The first half of a surrogate pair. -/
def isHighSurrogate (unit : Nat) : Bool := 0xd800 ≤ unit && unit < 0xdc00

/-- The second half of a surrogate pair. -/
def isLowSurrogate (unit : Nat) : Bool := 0xdc00 ≤ unit && unit < 0xe000

/-- The text of code units; half a surrogate pair makes it none. -/
def decodeUnits : List Nat → Option (List Char)
  | [] => some []
  | [unit] =>
    if isHighSurrogate unit || isLowSurrogate unit then none else some [Char.ofNat unit]
  | unit :: next :: rest =>
    if isHighSurrogate unit then
      if isLowSurrogate next then
        (decodeUnits rest).map
          (Char.ofNat (0x10000 + (unit - 0xd800) * 0x400 + (next - 0xdc00)) :: ·)
      else none
    else if isLowSurrogate unit then none
    else (decodeUnits (next :: rest)).map (Char.ofNat unit :: ·)

/-- A string literal after its opening quote. -/
def readString (input : Input) : Option (Option (List Char) × Input) :=
  (readUnits input).map fun (units, rest) => (decodeUnits units, rest)

/-! ### Values -/

mutual
/-- A value.  Each element, member and nested value takes one of the given steps. -/
def readValue : (steps : Nat) → Input → Option (Value × Input)
  | 0, _ => none
  | steps + 1, input =>
    match skipBlanks input with
    | '"' :: rest => (readString rest).map fun (s, rest) => (.string s, rest)
    | '[' :: rest =>
      match skipBlanks rest with
      | ']' :: rest => some (.array [], rest)
      | rest => (readElements steps rest).map fun (values, rest) => (.array values, rest)
    | '\x7b' :: rest =>
      match skipBlanks rest with
      | '\x7d' :: rest => some (.object [], rest)
      | rest => (readMembers steps rest).map fun (members, rest) => (.object members, rest)
    | 'n' :: rest => (skipText "ull".toList rest).map fun rest => (.null, rest)
    | 't' :: rest => (skipText "rue".toList rest).map fun rest => (.bool true, rest)
    | 'f' :: rest => (skipText "alse".toList rest).map fun rest => (.bool false, rest)
    | rest => (readNumeral rest).map fun (n, rest) => (.number n, rest)

/-- One or more elements and the bracket that closes the array. -/
def readElements : (steps : Nat) → Input → Option (List Value × Input)
  | 0, _ => none
  | steps + 1, input => do
    let (v, rest) ← readValue steps input
    match skipBlanks rest with
    | ']' :: rest => return ([v], rest)
    | ',' :: rest =>
      let (values, rest) ← readElements steps rest
      return (v :: values, rest)
    | _ => none

/-- One or more members and the brace that closes the object. -/
def readMembers : (steps : Nat) → Input → Option (List (Option (List Char) × Value) × Input)
  | 0, _ => none
  | steps + 1, input =>
    match skipBlanks input with
    | '"' :: rest => do
      let (name, rest) ← readString rest
      match skipBlanks rest with
      | ':' :: rest =>
        let (v, rest) ← readValue steps rest
        match skipBlanks rest with
        | '\x7d' :: rest => return ([(name, v)], rest)
        | ',' :: rest =>
          let (members, rest) ← readMembers steps rest
          return ((name, v) :: members, rest)
        | _ => none
      | _ => none
    | _ => none
end

/-- The value that a whole text holds.  A value has fewer elements, members and nested values than
its text has characters, so the steps suffice. -/
def parse (text : String) : Option Value :=
  let input := text.toList
  match readValue (2 * input.length + 2) input with
  | some (v, rest) => if (skipBlanks rest).isEmpty then some v else none
  | none => none

end Antimeridian.Json
