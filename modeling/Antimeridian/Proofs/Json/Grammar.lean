import Antimeridian.Json.Parser
import Mathlib

/-!
# The grammar of JSON

`Spells v t` says that the text `t` is a way to write the value `v`, with blanks wherever they may
stand.  The reader gives back every value from every text that spells it: a number ends where no
character can continue it, everything else ends by itself, and the steps granted to the reader are
never used up.
-/

namespace Antimeridian.Json

/-! ## Blanks -/

section

variable {c : Char} {t : Input}

theorem skipBlanks_cons (blank : isBlank c = true) : skipBlanks (c :: t) = skipBlanks t :=
  List.dropWhile_cons_of_pos blank

theorem skipBlanks_of_not_blank (ink : isBlank c = false) : skipBlanks (c :: t) = c :: t :=
  List.dropWhile_cons_of_neg (by simp [ink])

theorem skipBlanks_append {b : List Char} (blank : ∀ c ∈ b, isBlank c = true) (t : Input) :
    skipBlanks (b ++ t) = skipBlanks t := by
  induction b with
  | nil => rfl
  | cons c b ih =>
    rw [List.cons_append, skipBlanks_cons (blank c List.mem_cons_self)]
    exact ih fun d member => blank d (List.mem_cons_of_mem c member)

@[simp] theorem skipBlanks_skipBlanks (t : Input) : skipBlanks (skipBlanks t) = skipBlanks t :=
  List.dropWhile_idempotent isBlank t

theorem isBlank_of_isDigit (digit : c.isDigit = true) : isBlank c = false := by
  rw [← Bool.not_eq_true]
  intro blank
  simp only [isBlank, Bool.or_eq_true, decide_eq_true_eq] at blank
  rcases blank with ((rfl | rfl) | rfl) | rfl <;> simp at digit

end

/-! ## Numbers -/

/-- One or more digits. -/
def IsDigits (digits : List Char) : Prop := digits ≠ [] ∧ ∀ c ∈ digits, c.isDigit = true

/-- The parts of a number can be written one after the other: each of them has digits, and no zero
stands before other digits of the whole part. -/
structure Numeral.WellFormed (n : Numeral) : Prop where
  whole : IsDigits n.whole
  zero : n.whole.head? = some '0' → n.whole = ['0']
  fraction : ∀ digits ∈ n.fraction, IsDigits digits
  exponent : ∀ e ∈ n.exponent, IsDigits e.digits

/-- The ways to write an exponent. -/
inductive SpellsExponent : Option Exponent → List Char → Prop
  | none : SpellsExponent none []
  | minus {mark : Char} (digits : List Char) (isMark : mark = 'e' ∨ mark = 'E') :
    SpellsExponent (some ⟨true, digits⟩) (mark :: '-' :: digits)
  | plus {mark : Char} (digits : List Char) (isMark : mark = 'e' ∨ mark = 'E') :
    SpellsExponent (some ⟨false, digits⟩) (mark :: '+' :: digits)
  | unsigned {mark : Char} (digits : List Char) (isMark : mark = 'e' ∨ mark = 'E') :
    SpellsExponent (some ⟨false, digits⟩) (mark :: digits)

/-- The sign of a number as text. -/
def Numeral.signText (n : Numeral) : List Char := if n.negative then ['-'] else []

/-- The fraction of a number as text. -/
def Numeral.fractionText (n : Numeral) : List Char :=
  match n.fraction with
  | some digits => '.' :: digits
  | none => []

/-- The ways to write a number: only the exponent leaves a choice. -/
structure Numeral.Spells (n : Numeral) (t : List Char) : Prop where
  wellFormed : n.WellFormed
  parts : ∃ e, SpellsExponent n.exponent e ∧ t = n.signText ++ (n.whole ++ (n.fractionText ++ e))

/-- The input cannot continue a number. -/
def Ends (rest : Input) : Prop :=
  ∀ c ∈ rest.head?, c.isDigit = false ∧ c ≠ '.' ∧ c ≠ 'e' ∧ c ≠ 'E'

section

variable {rest : Input}

theorem ends_nil : Ends [] := by
  intro c member
  cases member

/-- A numeral ends before a blank, a comma and a closing bracket or brace. -/
theorem ends_cons {c : Char} (mark : isBlank c = true ∨ c ∈ [',', ']', '\x7d']) (rest : Input) :
    Ends (c :: rest) := by
  intro d member
  obtain rfl : c = d := Option.some.inj member
  rcases mark with blank | mark
  · simp only [isBlank, Bool.or_eq_true, decide_eq_true_eq] at blank
    rcases blank with ((rfl | rfl) | rfl) | rfl <;> decide
  · fin_cases mark <;> decide

/-- Digits are read up to the first character that is none. -/
theorem readDigits_append {digits : List Char} (isDigits : IsDigits digits)
    (ends : ∀ c ∈ rest.head?, c.isDigit = false) :
    readDigits (digits ++ rest) = some (digits, rest) := by
  have stop : rest.takeWhile Char.isDigit = [] ∧ rest.dropWhile Char.isDigit = rest := by
    cases rest with
    | nil => exact ⟨rfl, rfl⟩
    | cons c rest => simp [ends c rfl]
  rw [readDigits, List.takeWhile_append_of_pos isDigits.2, List.dropWhile_append_of_pos isDigits.2,
    stop.1, stop.2, List.append_nil]
  simp [isDigits.1]

/-- The first character of a list of digits. -/
theorem IsDigits.exists_cons {digits : List Char} (isDigits : IsDigits digits) :
    ∃ c tail, digits = c :: tail ∧ c.isDigit = true := by
  obtain ⟨some, all⟩ := isDigits
  cases digits with
  | nil => exact absurd rfl some
  | cons c tail => exact ⟨c, tail, rfl, all c List.mem_cons_self⟩

theorem readExponent_append {exponent : Option Exponent} {t : List Char}
    (spells : SpellsExponent exponent t) (digits : ∀ e ∈ exponent, IsDigits e.digits)
    (ends : Ends rest) : readExponent (t ++ rest) = some (exponent, rest) := by
  have stop : ∀ c ∈ rest.head?, c.isDigit = false := fun c member => (ends c member).1
  have read : ∀ {mark : Char} (after : Input), mark = 'e' ∨ mark = 'E' →
      readExponent (mark :: after) = (readExponentDigits after).map fun p => (some p.1, p.2) := by
    rintro mark after (rfl | rfl) <;> rfl
  cases spells with
  | none =>
    cases rest with
    | nil => rfl
    | cons c rest =>
      obtain ⟨-, -, lower, upper⟩ := ends c rfl
      rw [List.nil_append, readExponent]
      · rintro r ⟨⟩
        exact lower rfl
      · rintro r ⟨⟩
        exact upper rfl
  | minus d isMark =>
    rw [List.cons_append, read _ isMark, List.cons_append, readExponentDigits,
      readDigits_append (digits _ rfl) stop]
    rfl
  | plus d isMark =>
    rw [List.cons_append, read _ isMark, List.cons_append, readExponentDigits,
      readDigits_append (digits _ rfl) stop]
    rfl
  | unsigned d isMark =>
    have isDigits : IsDigits d := digits _ rfl
    obtain ⟨c, tail, rfl, digit⟩ := isDigits.exists_cons
    rw [List.cons_append, read _ isMark, List.cons_append, readExponentDigits]
    · rw [← List.cons_append, readDigits_append isDigits stop]
      rfl
    · rintro r ⟨⟩
      cases digit
    · rintro r ⟨⟩
      cases digit

/-- Neither a point nor a digit begins an exponent. -/
theorem SpellsExponent.head {exponent : Option Exponent} {t : List Char}
    (spells : SpellsExponent exponent t) (ends : Ends rest) :
    ∀ c ∈ (t ++ rest).head?, c.isDigit = false ∧ c ≠ '.' := by
  intro c member
  cases spells with
  | none => exact ⟨(ends c member).1, (ends c member).2.1⟩
  | minus d isMark | plus d isMark | unsigned d isMark =>
    obtain rfl := Option.some.inj member
    rcases isMark with rfl | rfl <;> decide

theorem readFraction_append (n : Numeral) (digits : ∀ d ∈ n.fraction, IsDigits d)
    (ends : ∀ c ∈ rest.head?, c.isDigit = false ∧ c ≠ '.') :
    readFraction (n.fractionText ++ rest) = some (n.fraction, rest) := by
  unfold Numeral.fractionText
  cases fraction : n.fraction with
  | none =>
    cases rest with
    | nil => rfl
    | cons c rest =>
      rw [List.nil_append, readFraction]
      rintro r ⟨⟩
      exact (ends '.' rfl).2 rfl
  | some d =>
    rw [List.cons_append, readFraction,
      readDigits_append (digits d fraction) fun c member => (ends c member).1]
    rfl

theorem readWhole_append {whole : List Char} (isDigits : IsDigits whole)
    (zero : whole.head? = some '0' → whole = ['0']) (ends : ∀ c ∈ rest.head?, c.isDigit = false) :
    readWhole (whole ++ rest) = some (whole, rest) := by
  obtain ⟨c, tail, rfl, -⟩ := isDigits.exists_cons
  by_cases isZero : c = '0'
  · subst isZero
    rw [zero rfl]
    rfl
  · rw [List.cons_append, readWhole]
    · rw [← List.cons_append, readDigits_append isDigits ends]
    · rintro r ⟨⟩
      exact isZero rfl

/-- A numeral without its sign is read back from its spelling. -/
theorem readUnsigned_append (n : Numeral) {e : List Char} (wellFormed : n.WellFormed)
    (exponent : SpellsExponent n.exponent e) (ends : Ends rest) :
    readUnsigned n.negative (n.whole ++ (n.fractionText ++ (e ++ rest))) = some (n, rest) := by
  have afterFraction := exponent.head ends
  have afterWhole : ∀ c ∈ (n.fractionText ++ (e ++ rest)).head?, c.isDigit = false := by
    unfold Numeral.fractionText
    cases n.fraction with
    | none => exact fun c member => (afterFraction c member).1
    | some d =>
      intro c member
      obtain rfl := Option.some.inj member
      decide
  rw [readUnsigned, readWhole_append wellFormed.whole wellFormed.zero afterWhole]
  dsimp only [bind, Option.bind]
  rw [readFraction_append n wellFormed.fraction afterFraction]
  dsimp only
  rw [readExponent_append exponent wellFormed.exponent ends]
  rfl

/-- A number is read back from every text that spells it. -/
theorem Numeral.Spells.read {n : Numeral} {t : List Char} (spells : n.Spells t) (ends : Ends rest) :
    readNumeral (t ++ rest) = some (n, rest) := by
  obtain ⟨wellFormed, e, exponent, rfl⟩ := spells
  have unsigned := readUnsigned_append n wellFormed exponent ends
  obtain ⟨c, tail, whole, digit⟩ := wellFormed.whole.exists_cons
  rw [List.append_assoc, List.append_assoc, List.append_assoc, Numeral.signText]
  cases negative : n.negative with
  | true =>
    rw [negative] at unsigned
    exact unsigned
  | false =>
    rw [negative, whole] at unsigned
    rw [whole, if_neg Bool.false_ne_true, List.nil_append, List.cons_append, readNumeral]
    · exact unsigned
    · rintro r ⟨⟩
      cases digit

end

/-! ## Strings -/

/-- The ways to write a code unit inside a string literal. -/
inductive SpellsUnit : Nat → List Char → Prop
  | plain {c : Char} (ink : 0x20 ≤ c.toNat) (quote : c ≠ '"') (escape : c ≠ '\\') :
    SpellsUnit c.toNat [c]
  | short {c d : Char} (escape : shortEscape c = some d) : SpellsUnit d.toNat ['\\', c]
  | word {a b c d : Char} {unit : Nat} (word : hexWord a b c d = some unit) :
    SpellsUnit unit ['\\', 'u', a, b, c, d]

theorem SpellsUnit.read {unit : Nat} {t : List Char} (spells : SpellsUnit unit t) {units : List Nat}
    {input rest : Input} (after : readUnits input = some (units, rest)) :
    readUnits (t ++ input) = some (unit :: units, rest) := by
  cases spells with
  | @plain c ink quote escape =>
    have plain : ¬((decide (c.toNat < 0x20) || decide (c = '\\')) = true) := by
      simp [escape]
      omega
    rw [List.singleton_append, readUnits, if_neg plain, after]
    · rfl
    · exact fun equal => quote equal
    · exact fun _ _ _ _ _ equal => absurd equal escape
    · exact fun _ _ equal => absurd equal escape
  | @short c d escape =>
    have notWord : c ≠ 'u' := by
      rintro rfl
      cases escape
    rw [List.cons_append, List.singleton_append, readUnits, escape, after]
    · rfl
    · exact fun _ _ _ _ _ equal => absurd equal notWord
  | word word =>
    simp only [List.cons_append, List.nil_append]
    rw [readUnits, word, after]
    rfl

/-- A string literal is read back from the spellings of its units. -/
theorem readUnits_flatten {units : List Nat} {ts : List (List Char)}
    (spells : List.Forall₂ SpellsUnit units ts) (rest : Input) :
    readUnits (ts.flatten ++ '"' :: rest) = some (units, rest) := by
  induction spells with
  | nil => rfl
  | cons unit _ ih =>
    rw [List.flatten_cons, List.append_assoc]
    exact unit.read ih

/-! ## Values -/

mutual
/-- The ways to write a value. -/
inductive Spells : Value → List Char → Prop
  | before {c : Char} {v : Value} {t : List Char} :
    isBlank c = true → Spells v t → Spells v (c :: t)
  | after {c : Char} {v : Value} {t : List Char} :
    isBlank c = true → Spells v t → Spells v (t ++ [c])
  | null : Spells .null "null".toList
  | yes : Spells (.bool true) "true".toList
  | no : Spells (.bool false) "false".toList
  | number {n : Numeral} {t : List Char} : n.Spells t → Spells (.number n) t
  | string {units : List Nat} {ts : List (List Char)} : List.Forall₂ SpellsUnit units ts →
    Spells (.string (decodeUnits units)) ('"' :: (ts.flatten ++ ['"']))
  | emptyArray {b : List Char} : (∀ c ∈ b, isBlank c = true) →
    Spells (.array []) ('[' :: (b ++ [']']))
  | array {values : List Value} {t : List Char} : SpellsElements values t →
    Spells (.array values) ('[' :: (t ++ [']']))
  | emptyObject {b : List Char} : (∀ c ∈ b, isBlank c = true) →
    Spells (.object []) ('\x7b' :: (b ++ ['\x7d']))
  | object {members : List (Option (List Char) × Value)} {t : List Char} :
    SpellsMembers members t → Spells (.object members) ('\x7b' :: (t ++ ['\x7d']))

/-- The ways to write the elements of an array, one or more. -/
inductive SpellsElements : List Value → List Char → Prop
  | last {v : Value} {t : List Char} : Spells v t → SpellsElements [v] t
  | more {v : Value} {t : List Char} {values : List Value} {u : List Char} :
    Spells v t → SpellsElements values u → SpellsElements (v :: values) (t ++ ',' :: u)

/-- The ways to write the members of an object, one or more. -/
inductive SpellsMembers : List (Option (List Char) × Value) → List Char → Prop
  | last {name : Option (List Char)} {t : List Char} {v : Value} {u : List Char} :
    Spells (.string name) t → Spells v u → SpellsMembers [(name, v)] (t ++ ':' :: u)
  | more {name : Option (List Char)} {t : List Char} {v : Value} {u : List Char}
    {members : List (Option (List Char) × Value)} {w : List Char} :
    Spells (.string name) t → Spells v u → SpellsMembers members w →
    SpellsMembers ((name, v) :: members) (t ++ ':' :: (u ++ ',' :: w))
end

/-! ## The first character -/

/-- A numeral begins with a minus sign or a digit. -/
theorem Numeral.Spells.exists_cons {n : Numeral} {t : List Char} (spells : n.Spells t) :
    ∃ c tail, t = c :: tail ∧ (c = '-' ∨ c.isDigit = true) := by
  obtain ⟨wellFormed, e, -, rfl⟩ := spells
  obtain ⟨c, tail, whole, digit⟩ := wellFormed.whole.exists_cons
  rw [Numeral.signText, whole]
  cases n.negative with
  | true => exact ⟨'-', _, rfl, .inl rfl⟩
  | false => exact ⟨c, _, rfl, .inr digit⟩

/-- The text of a value begins, after blanks, with a character that closes no array. -/
theorem Spells.start : ∀ {v : Value} {t : List Char}, Spells v t →
    ∃ c, c ≠ ']' ∧ ∀ rest, ∃ u, skipBlanks (t ++ rest) = c :: u
  | _, _, .before blank spells => by
    obtain ⟨c, opens, start⟩ := spells.start
    refine ⟨c, opens, fun rest => ?_⟩
    rw [List.cons_append, skipBlanks_cons blank]
    exact start rest
  | _, _, .after _ spells => by
    obtain ⟨c, opens, start⟩ := spells.start
    refine ⟨c, opens, fun rest => ?_⟩
    rw [List.append_assoc]
    exact start _
  | _, _, .number spells => by
    obtain ⟨c, tail, rfl, first⟩ := spells.exists_cons
    have ink : isBlank c = false := by
      rcases first with rfl | digit
      · rfl
      · exact isBlank_of_isDigit digit
    refine ⟨c, ?_, fun rest => ⟨tail ++ rest, skipBlanks_of_not_blank ink⟩⟩
    rintro rfl
    rcases first with equal | digit
    · cases equal
    · cases digit
  | _, _, .null => ⟨'n', by decide, fun _ => ⟨_, rfl⟩⟩
  | _, _, .yes => ⟨'t', by decide, fun _ => ⟨_, rfl⟩⟩
  | _, _, .no => ⟨'f', by decide, fun _ => ⟨_, rfl⟩⟩
  | _, _, .string _ => ⟨'"', by decide, fun _ => ⟨_, rfl⟩⟩
  | _, _, .emptyArray _ => ⟨'[', by decide, fun _ => ⟨_, rfl⟩⟩
  | _, _, .array _ => ⟨'[', by decide, fun _ => ⟨_, rfl⟩⟩
  | _, _, .emptyObject _ => ⟨'\x7b', by decide, fun _ => ⟨_, rfl⟩⟩
  | _, _, .object _ => ⟨'\x7b', by decide, fun _ => ⟨_, rfl⟩⟩

/-- The text of a string begins, after blanks, with a quote, and the string is read from there. -/
theorem Spells.readString : ∀ {v : Value} {t : List Char}, Spells v t →
    ∀ {s : Option (List Char)}, v = .string s → ∀ rest, ∃ u after,
      skipBlanks (t ++ rest) = '"' :: u ∧ readString u = some (s, after) ∧
        skipBlanks after = skipBlanks rest
  | _, _, .before blank spells, s, isString, rest => by
    rw [List.cons_append, skipBlanks_cons blank]
    exact spells.readString isString rest
  | _, _, .after blank spells, s, isString, rest => by
    obtain ⟨u, after, start, read, blanks⟩ := spells.readString isString (_ :: rest)
    rw [List.append_assoc]
    exact ⟨u, after, start, read, blanks.trans (skipBlanks_cons blank)⟩
  | _, _, @Spells.string units ts spells, s, isString, rest => by
    refine ⟨ts.flatten ++ '"' :: rest, rest, ?_, ?_, rfl⟩
    · rw [List.cons_append, List.append_assoc]
      rfl
    · rw [Json.readString, readUnits_flatten spells, ← Value.string.inj isString]
      rfl

/-! ## Reading -/

section

variable {steps : Nat} {c : Char} {t rest after : Input} {v : Value}

/-- Blanks in front of a value make no difference. -/
theorem readValue_skipBlanks (steps : Nat) (t : Input) :
    readValue steps (skipBlanks t) = readValue steps t := by
  cases steps with
  | zero => rfl
  | succ steps => rw [readValue, readValue, skipBlanks_skipBlanks]

theorem readElements_skipBlanks (steps : Nat) (t : Input) :
    readElements steps (skipBlanks t) = readElements steps t := by
  cases steps with
  | zero => rfl
  | succ steps => rw [readElements, readElements, readValue_skipBlanks]

theorem readMembers_skipBlanks (steps : Nat) (t : Input) :
    readMembers steps (skipBlanks t) = readMembers steps t := by
  cases steps with
  | zero => rfl
  | succ steps => rw [readMembers, readMembers, skipBlanks_skipBlanks]

theorem readValue_quote (steps : Nat) (t : Input) :
    readValue (steps + 1) ('"' :: t) = (readString t).map fun (s, rest) => (.string s, rest) := rfl

theorem readValue_bracket (steps : Nat) (t : Input) : readValue (steps + 1) ('[' :: t) =
    match skipBlanks t with
    | ']' :: rest => some (.array [], rest)
    | rest => (readElements steps rest).map fun (values, rest) => (.array values, rest) := rfl

theorem readValue_brace (steps : Nat) (t : Input) : readValue (steps + 1) ('\x7b' :: t) =
    match skipBlanks t with
    | '\x7d' :: rest => some (.object [], rest)
    | rest => (readMembers steps rest).map fun (members, rest) => (.object members, rest) := rfl

theorem readValue_number (first : c = '-' ∨ c.isDigit = true) :
    readValue (steps + 1) (c :: t) =
      (readNumeral (c :: t)).map fun (n, rest) => (.number n, rest) := by
  have ink : isBlank c = false := by
    rcases first with rfl | digit
    · rfl
    · exact isBlank_of_isDigit digit
  rw [readValue, skipBlanks_of_not_blank ink]
  split
  all_goals first
    | rfl
    | (rename_i equal
       obtain ⟨rfl, rfl⟩ := List.cons.inj equal
       simp at first)

theorem readValue_array (opens : c ≠ ']') (start : skipBlanks t = c :: rest) :
    readValue (steps + 1) ('[' :: t) =
      (readElements steps t).map fun (values, rest) => (.array values, rest) := by
  rw [readValue_bracket, start]
  split
  · rename_i equal
    exact absurd (List.cons.inj equal).1 opens
  · rw [← start, readElements_skipBlanks]

theorem readValue_object (start : skipBlanks t = '"' :: rest) :
    readValue (steps + 1) ('\x7b' :: t) =
      (readMembers steps t).map fun (members, rest) => (.object members, rest) := by
  rw [readValue_brace, ← readMembers_skipBlanks steps t, start]
  rfl

theorem readElements_last (value : readValue steps t = some (v, after))
    (closes : skipBlanks after = ']' :: rest) :
    readElements (steps + 1) t = some ([v], rest) := by
  rw [readElements, value, Option.bind_eq_bind, Option.bind_some]
  dsimp only
  rw [closes]
  rfl

theorem readElements_more (value : readValue steps t = some (v, after))
    (continues : skipBlanks after = ',' :: rest) :
    readElements (steps + 1) t =
      (readElements steps rest).map fun (values, rest) => (v :: values, rest) := by
  rw [readElements, value, Option.bind_eq_bind, Option.bind_some]
  dsimp only
  rw [continues]
  change (readElements steps rest).bind _ = _
  cases readElements steps rest <;> rfl

variable {name : Option (List Char)} {u afterName : Input}

theorem readMembers_last (quote : skipBlanks t = '"' :: u)
    (string : readString u = some (name, afterName)) (colon : skipBlanks afterName = ':' :: rest)
    (value : readValue steps rest = some (v, after)) {final : Input}
    (closes : skipBlanks after = '\x7d' :: final) :
    readMembers (steps + 1) t = some ([(name, v)], final) := by
  rw [readMembers, quote]
  change (readString u).bind _ = _
  rw [string, Option.bind_some]
  dsimp only
  rw [colon]
  change (readValue steps rest).bind _ = _
  rw [value, Option.bind_some]
  dsimp only
  rw [closes]
  rfl

theorem readMembers_more (quote : skipBlanks t = '"' :: u)
    (string : readString u = some (name, afterName)) (colon : skipBlanks afterName = ':' :: rest)
    (value : readValue steps rest = some (v, after)) {final : Input}
    (continues : skipBlanks after = ',' :: final) :
    readMembers (steps + 1) t =
      (readMembers steps final).map fun (members, rest) => ((name, v) :: members, rest) := by
  rw [readMembers, quote]
  change (readString u).bind _ = _
  rw [string, Option.bind_some]
  dsimp only
  rw [colon]
  change (readValue steps rest).bind _ = _
  rw [value, Option.bind_some]
  dsimp only
  rw [continues]
  change (readMembers steps final).bind _ = _
  cases readMembers steps final <;> rfl

end

/-- Elements do not begin with a closing bracket. -/
theorem SpellsElements.start {values : List Value} {t : List Char}
    (elements : SpellsElements values t) :
    ∃ c, c ≠ ']' ∧ ∀ rest, ∃ u, skipBlanks (t ++ rest) = c :: u := by
  cases elements with
  | last spells => exact spells.start
  | more spells _ =>
    obtain ⟨c, opens, start⟩ := spells.start
    refine ⟨c, opens, fun rest => ?_⟩
    rw [List.append_assoc]
    exact start _

/-- Members begin with a quotation mark. -/
theorem SpellsMembers.start {members : List (Option (List Char) × Value)} {t : List Char}
    (spells : SpellsMembers members t) (rest : Input) :
    ∃ u, skipBlanks (t ++ rest) = '"' :: u := by
  cases spells with
  | last name _ | more name _ _ =>
    rw [List.append_assoc]
    obtain ⟨u, after, start, -⟩ := name.readString rfl (_ ++ rest)
    exact ⟨u, start⟩

-- Two steps for each character are enough: an element or a member takes one step besides those of
-- its value, and at least one character, the bracket or comma after it, is not part of the value.
mutual
/-- A value is read back from every text that spells it; blanks may be left unread. -/
theorem Spells.read : ∀ {v : Value} {t : List Char}, Spells v t → ∀ (steps : Nat) (rest : Input),
    2 * t.length ≤ steps → Ends rest → ∃ after, readValue steps (t ++ rest) = some (v, after) ∧
      skipBlanks after = skipBlanks rest
  | _, _, .before blank spells, steps, rest, enough, ends => by
    rw [List.length_cons] at enough
    rw [List.cons_append, ← readValue_skipBlanks, skipBlanks_cons blank, readValue_skipBlanks]
    exact spells.read steps rest (by omega) ends
  | _, _, .after blank spells, steps, rest, enough, ends => by
    rw [List.length_append] at enough
    obtain ⟨after, read, blanks⟩ := spells.read steps (_ :: rest) (by omega)
      (ends_cons (.inl blank) rest)
    rw [List.append_assoc]
    exact ⟨after, read, blanks.trans (skipBlanks_cons blank)⟩
  | _, _, .null, steps + 1, rest, enough, ends => ⟨rest, rfl, rfl⟩
  | _, _, .yes, steps + 1, rest, enough, ends => ⟨rest, rfl, rfl⟩
  | _, _, .no, steps + 1, rest, enough, ends => ⟨rest, rfl, rfl⟩
  | _, _, .number spells, 0, rest, enough, ends => by
    -- a number has a first character, so there is a step for it
    obtain ⟨c, tail, rfl, -⟩ := spells.exists_cons
    cases enough
  | _, _, .number spells, steps + 1, rest, enough, ends => by
    have read := spells.read ends
    obtain ⟨c, tail, rfl, first⟩ := spells.exists_cons
    refine ⟨rest, ?_, rfl⟩
    rw [List.cons_append, readValue_number first, ← List.cons_append, read]
    rfl
  | _, _, .string spells, steps + 1, rest, enough, ends => by
    obtain ⟨u, after, start, read, blanks⟩ := (Spells.string spells).readString rfl rest
    refine ⟨after, ?_, blanks⟩
    rw [← readValue_skipBlanks, start, readValue_quote, read]
    rfl
  | _, _, .emptyArray blank, steps + 1, rest, enough, ends => by
    refine ⟨rest, ?_, rfl⟩
    rw [List.cons_append, List.append_assoc, readValue_bracket, skipBlanks_append blank]
    rfl
  | _, _, .array elements, steps + 1, rest, enough, ends => by
    obtain ⟨c, opens, start⟩ := elements.start
    obtain ⟨u, begins⟩ := start (']' :: rest)
    rw [List.length_cons, List.length_append] at enough
    refine ⟨rest, ?_, rfl⟩
    rw [List.cons_append, List.append_assoc, List.singleton_append, readValue_array opens begins,
      elements.read steps rest (by omega)]
    rfl
  | _, _, .emptyObject blank, steps + 1, rest, enough, ends => by
    refine ⟨rest, ?_, rfl⟩
    rw [List.cons_append, List.append_assoc, readValue_brace, skipBlanks_append blank]
    rfl
  | _, _, .object members, steps + 1, rest, enough, ends => by
    obtain ⟨u, begins⟩ := members.start ('\x7d' :: rest)
    rw [List.length_cons, List.length_append] at enough
    refine ⟨rest, ?_, rfl⟩
    rw [List.cons_append, List.append_assoc, List.singleton_append, readValue_object begins,
      members.read steps rest (by omega)]
    rfl

/-- The elements of an array are read back up to the bracket that closes it. -/
theorem SpellsElements.read : ∀ {values : List Value} {t : List Char}, SpellsElements values t →
    ∀ (steps : Nat) (rest : Input), 2 * t.length + 1 ≤ steps →
      readElements steps (t ++ ']' :: rest) = some (values, rest)
  | _, _, .last spells, steps + 1, rest, enough => by
    obtain ⟨after, read, blanks⟩ := spells.read steps (']' :: rest) (by omega)
      (ends_cons (.inr (by decide)) rest)
    exact readElements_last read (blanks.trans (skipBlanks_of_not_blank rfl))
  | _, _, .more (t := t) (u := u) spells elements, steps + 1, rest, enough => by
    rw [List.length_append, List.length_cons] at enough
    have ends : Ends (',' :: (u ++ ']' :: rest)) := ends_cons (.inr (by decide)) _
    obtain ⟨after, read, blanks⟩ := spells.read steps _ (by omega) ends
    rw [List.append_assoc, List.cons_append,
      readElements_more read (blanks.trans (skipBlanks_of_not_blank rfl)),
      elements.read steps rest (by omega)]
    rfl

/-- The members of an object are read back up to the brace that closes it. -/
theorem SpellsMembers.read : ∀ {members : List (Option (List Char) × Value)} {t : List Char},
    SpellsMembers members t → ∀ (steps : Nat) (rest : Input), 2 * t.length + 1 ≤ steps →
      readMembers steps (t ++ '\x7d' :: rest) = some (members, rest)
  | _, _, .last (u := u) name spells, steps + 1, rest, enough => by
    rw [List.length_append, List.length_cons] at enough
    obtain ⟨q, afterName, quote, string, colon⟩ :=
      name.readString rfl (':' :: (u ++ '\x7d' :: rest))
    obtain ⟨after, read, blanks⟩ := spells.read steps ('\x7d' :: rest) (by omega)
      (ends_cons (.inr (by decide)) rest)
    rw [List.append_assoc, List.cons_append]
    exact readMembers_last quote string (colon.trans (skipBlanks_of_not_blank rfl)) read
      (blanks.trans (skipBlanks_of_not_blank rfl))
  | _, _, .more (u := u) (w := w) name spells members, steps + 1, rest, enough => by
    rw [List.length_append, List.length_cons, List.length_append, List.length_cons] at enough
    obtain ⟨q, afterName, quote, string, colon⟩ :=
      name.readString rfl (':' :: (u ++ ',' :: (w ++ '\x7d' :: rest)))
    have ends : Ends (',' :: (w ++ '\x7d' :: rest)) := ends_cons (.inr (by decide)) _
    obtain ⟨after, read, blanks⟩ := spells.read steps _ (by omega) ends
    rw [List.append_assoc, List.cons_append, List.append_assoc, List.cons_append,
      readMembers_more quote string (colon.trans (skipBlanks_of_not_blank rfl)) read
        (blanks.trans (skipBlanks_of_not_blank rfl)), members.read steps rest (by omega)]
    rfl
end

/-- Every text that spells a value is read as that value. -/
theorem parse_of_spells {v : Value} {t : List Char} (spells : Spells v t) :
    parse (String.ofList t) = some v := by
  obtain ⟨after, read, blanks⟩ := spells.read (2 * t.length + 2) [] (by omega) ends_nil
  rw [List.append_nil] at read
  rw [parse, String.toList_ofList]
  rw [read]
  dsimp only
  rw [blanks]
  rfl

end Antimeridian.Json
