import Antimeridian.Json.Printer
import Antimeridian.Proofs.Json.Grammar

/-!
# Written values are read back

What is written for a value spells the value, if its numbers are well formed, and so the value is
read back from it.  The numbers written for natural numbers and for doubles are well formed: the
digits of a number never begin with a zero, but for the number zero itself.
-/

namespace Antimeridian.Json

/-! ## Blanks around a text -/

section

variable {b t : List Char} {v : Value}

theorem Spells.indent (blank : ∀ c ∈ b, isBlank c = true) (spells : Spells v t) :
    Spells v (b ++ t) := by
  induction b with
  | nil => exact spells
  | cons c b ih =>
    exact .before (blank c List.mem_cons_self)
      (ih fun d member => blank d (List.mem_cons_of_mem c member))

theorem Spells.trail (blank : ∀ c ∈ b, isBlank c = true) (spells : Spells v t) :
    Spells v (t ++ b) := by
  induction b generalizing t with
  | nil => rwa [List.append_nil]
  | cons c b ih =>
    rw [List.append_cons]
    exact ih (fun d member => blank d (List.mem_cons_of_mem c member))
      (.after (blank c List.mem_cons_self) spells)

theorem SpellsElements.indent {values : List Value} (blank : ∀ c ∈ b, isBlank c = true)
    (elements : SpellsElements values t) : SpellsElements values (b ++ t) := by
  cases elements with
  | last spells => exact .last (spells.indent blank)
  | more spells elements =>
    rw [← List.append_assoc]
    exact .more (spells.indent blank) elements

theorem SpellsElements.trail (blank : ∀ c ∈ b, isBlank c = true) :
    ∀ {values : List Value} {t : List Char}, SpellsElements values t →
      SpellsElements values (t ++ b)
  | _, _, .last spells => .last (spells.trail blank)
  | _, _, .more spells elements => by
    rw [List.append_assoc, List.cons_append]
    exact .more spells (elements.trail blank)

theorem SpellsMembers.indent {members : List (Option (List Char) × Value)}
    (blank : ∀ c ∈ b, isBlank c = true) (spells : SpellsMembers members t) :
    SpellsMembers members (b ++ t) := by
  cases spells with
  | last name spells =>
    rw [← List.append_assoc]
    exact .last (name.indent blank) spells
  | more name spells members =>
    rw [← List.append_assoc]
    exact .more (name.indent blank) spells members

theorem SpellsMembers.trail (blank : ∀ c ∈ b, isBlank c = true) :
    ∀ {members : List (Option (List Char) × Value)} {t : List Char}, SpellsMembers members t →
      SpellsMembers members (t ++ b)
  | _, _, .last name spells => by
    rw [List.append_assoc, List.cons_append]
    exact .last name (spells.trail blank)
  | _, _, .more name spells members => by
    rw [List.append_assoc, List.cons_append, List.append_assoc, List.cons_append]
    exact .more name spells (members.trail blank)

end

/-! ## Lists of texts -/

/-- The text spells a member of an object. -/
def SpellsMember (member : Option (List Char) × Value) (text : List Char) : Prop :=
  ∃ t u, Spells (.string member.1) t ∧ Spells member.2 u ∧ text = t ++ ':' :: u

section

variable {b : List Char} {texts : List (List Char)}

/-- Spellings of values, separated by commas, spell the elements of an array. -/
theorem spellsElements_separated {values : List Value} (blank : ∀ c ∈ b, isBlank c = true)
    (each : List.Forall₂ Spells values texts) (some : values ≠ []) :
    SpellsElements values (separated (',' :: b) texts) := by
  induction each with
  | nil => exact absurd rfl some
  | @cons v t values texts spells each ih =>
    cases each with
    | nil => exact .last spells
    | cons next each =>
      have later := (ih (List.cons_ne_nil _ _)).indent blank
      rw [separated, List.append_assoc, List.cons_append]
      · exact .more spells later
      · exact List.cons_ne_nil _ _

/-- Spellings of members, separated by commas, spell the members of an object. -/
theorem spellsMembers_separated {members : List (Option (List Char) × Value)}
    (blank : ∀ c ∈ b, isBlank c = true) (each : List.Forall₂ SpellsMember members texts)
    (some : members ≠ []) : SpellsMembers members (separated (',' :: b) texts) := by
  induction each with
  | nil => exact absurd rfl some
  | @cons member t members texts spells each ih =>
    obtain ⟨u, w, name, value, rfl⟩ := spells
    cases each with
    | nil => exact .last name value
    | cons next each =>
      have later := (ih (List.cons_ne_nil _ _)).indent blank
      rw [separated, List.append_assoc, List.append_assoc, List.cons_append, List.cons_append]
      · exact .more name value later
      · exact List.cons_ne_nil _ _

theorem spells_compact_array {values : List Value} (each : List.Forall₂ Spells values texts) :
    Spells (.array values) ('[' :: (separated [','] texts ++ [']'])) := by
  cases each with
  | nil => exact .emptyArray (b := []) (by simp)
  | cons spells each =>
    exact .array (spellsElements_separated (by simp) (.cons spells each) (List.cons_ne_nil _ _))

theorem spells_compact_object {members : List (Option (List Char) × Value)}
    (each : List.Forall₂ SpellsMember members texts) :
    Spells (.object members) ('\x7b' :: (separated [','] texts ++ ['\x7d'])) := by
  cases each with
  | nil => exact .emptyObject (b := []) (by simp)
  | cons spells each =>
    exact .object (spellsMembers_separated (by simp) (.cons spells each) (List.cons_ne_nil _ _))

theorem newline_blank (depth : Nat) : ∀ c ∈ Value.newline depth, isBlank c = true := by
  intro c member
  rcases List.mem_cons.1 member with rfl | space
  · rfl
  · rw [(List.mem_replicate.1 space).2]
    rfl

/-- An array is spelled over several lines, at any depth. -/
theorem spells_block_array (depth : Nat) {values : List Value}
    (each : List.Forall₂ Spells values texts) :
    Spells (.array values) (Value.block depth '[' ']' texts) := by
  unfold Value.block
  cases each with
  | nil => exact .emptyArray (b := []) (by simp)
  | cons spells each =>
    have elements := spellsElements_separated (newline_blank (depth + 1)) (.cons spells each)
      (List.cons_ne_nil _ _)
    exact .array ((elements.indent (newline_blank (depth + 1))).trail (newline_blank depth))

theorem spells_block_object (depth : Nat) {members : List (Option (List Char) × Value)}
    (each : List.Forall₂ SpellsMember members texts) :
    Spells (.object members) (Value.block depth '\x7b' '\x7d' texts) := by
  unfold Value.block
  cases each with
  | nil => exact .emptyObject (b := []) (by simp)
  | cons spells each =>
    have elements := spellsMembers_separated (newline_blank (depth + 1)) (.cons spells each)
      (List.cons_ne_nil _ _)
    exact .object ((elements.indent (newline_blank (depth + 1))).trail (newline_blank depth))

end

/-! ## Strings -/

theorem hexWord_control : ∀ n < 0x20,
    hexWord '0' '0' (hexDigit (n / 16)) (hexDigit (n % 16)) = some n := by
  decide

/-- Every character is spelled by itself or by its escape. -/
theorem spellsUnit_escaped (c : Char) : SpellsUnit c.toNat (escaped c) := by
  unfold escaped
  split
  · rename_i quote
    subst quote
    exact .short rfl
  split
  · rename_i backslash
    subst backslash
    exact .short rfl
  split
  · rename_i control
    exact .word (hexWord_control c.toNat control)
  · exact .plain (by omega) ‹_› ‹_›

/-- A character is no half of a surrogate pair. -/
theorem not_surrogate (c : Char) :
    isHighSurrogate c.toNat = false ∧ isLowSurrogate c.toNat = false := by
  have valid : c.toNat < 0xd800 ∨ 0xdfff < c.toNat ∧ c.toNat < 0x110000 := c.valid
  simp only [isHighSurrogate, isLowSurrogate, Bool.and_eq_false_iff, decide_eq_false_iff_not]
  omega

theorem decodeUnits_map_toNat (s : List Char) : decodeUnits (s.map Char.toNat) = some s := by
  match s with
  | [] => rfl
  | [c] =>
    obtain ⟨high, low⟩ := not_surrogate c
    simp [decodeUnits, high, low]
  | c :: d :: rest =>
    obtain ⟨high, low⟩ := not_surrogate c
    have later := decodeUnits_map_toNat (d :: rest)
    rw [List.map_cons] at later
    simp [decodeUnits, high, low, later]

/-- Every string is spelled in quotation marks. -/
theorem spells_quoted (s : Option (List Char)) : Spells (.string s) (quoted s) := by
  cases s with
  | none =>
    have unit : SpellsUnit 0xd800 ['\\', 'u', 'd', '8', '0', '0'] := .word rfl
    exact .string (.cons unit .nil)
  | some s =>
    have units : List.Forall₂ SpellsUnit (s.map Char.toNat) (s.map escaped) := by
      rw [List.forall₂_map_left_iff, List.forall₂_map_right_iff, List.forall₂_same]
      exact fun c _ => spellsUnit_escaped c
    have spells := Spells.string units
    rwa [decodeUnits_map_toNat, ← List.flatMap_def] at spells

/-! ## Numbers that are written -/

theorem isDigits_digitChars (n : Nat) : IsDigits (Decimal.digitChars n) :=
  ⟨Nat.toDigits_ne_nil, fun _ => Nat.isDigit_of_mem_toDigits (by decide) (by decide)⟩

/-- The digits of a number have its value. -/
theorem digitsValue_digitChars (n : Nat) : digitsValue (Decimal.digitChars n) = n :=
  Nat.ofDigitChars_toDigits (by decide) (by decide)

/-- The digits of a positive number do not begin with a zero. -/
theorem head?_digitChars {n : Nat} (positive : 0 < n) :
    (Decimal.digitChars n).head? ≠ some '0' := by
  induction n using Nat.strong_induction_on with
  | _ n ih =>
    rw [Decimal.digitChars, Nat.toDigits_eq_if (by decide)]
    split
    · interval_cases n <;> decide
    · have shorter := ih (n / 10) (by omega) (by omega)
      rwa [List.head?_append_of_ne_nil _ Nat.toDigits_ne_nil]

theorem Numeral.wellFormed_ofNat (n : Nat) : (Numeral.ofNat n).WellFormed where
  whole := isDigits_digitChars n
  zero first := by
    rcases Nat.eq_zero_or_pos n with rfl | positive
    · rfl
    · exact absurd first (head?_digitChars positive)
  fraction := by simp [Numeral.ofNat]
  exponent := by simp [Numeral.ofNat]

/-- A shortest decimal is found among those to which its double is the nearest. -/
theorem nearestBits_of_search {tie : Decimal.Tie} {bits units steps : Nat} {exponent : Int}
    {d : Decimal} (found : Decimal.search tie bits units steps exponent = some d) :
    d.nearestBits = bits := by
  induction steps generalizing exponent with
  | zero => cases found
  | succ steps ih =>
    rw [Decimal.search] at found
    split at found
    · rename_i near stands
      obtain rfl := Option.some.inj found
      simp only [Decimal.standsFor] at stands
      split at stands
      · obtain rfl := Option.some.inj stands
        assumption
      · split at stands
        · obtain rfl := Option.some.inj stands
          assumption
        · cases stands
    · exact ih found

theorem nearestBits_of_digits_eq_zero {d : Decimal} (zero : d.digits = 0) : d.nearestBits = 0 := by
  rw [Decimal.nearestBits, zero, Nat.zero_mul, Double.nearestBits, if_pos rfl]

theorem exact_digits_pos {units : Nat} (positive : 0 < units) :
    0 < (Decimal.exact units).digits := by
  unfold Decimal.exact
  generalize 1074 = power
  exact Nat.mul_pos positive (Nat.pow_pos (by decide))

/-- Only a zero is written with the digit zero alone, and then at the place of the ones. -/
theorem shortest_eq_zero_or_pos (tie : Decimal.Tie) (x : Float) :
    Decimal.shortest tie x = ⟨0, 0⟩ ∨ 0 < (Decimal.shortest tie x).digits := by
  rw [Decimal.shortest]
  split
  · exact Or.inl rfl
  · rename_i nonzero
    right
    cases found : Decimal.search tie (Double.magnitudeBits x) (Double.decode x).units 24
      (Decimal.aboveExponent (Double.decode x).units) with
    | none => exact exact_digits_pos (Nat.pos_of_ne_zero nonzero)
    | some d =>
      apply Nat.pos_of_ne_zero
      intro (zero : d.digits = 0)
      have bits := nearestBits_of_search found
      rw [nearestBits_of_digits_eq_zero zero] at bits
      apply nonzero
      simp [Double.decode, ← bits, Double.Magnitude.units]

/-- A point put into digits leaves a whole part without leading zeros. -/
theorem positional_wellFormed {digits : List Char} (place : Int) (isDigits : IsDigits digits)
    (zero : digits.head? = some '0' → digits = ['0'] ∧ place = 0) :
    IsDigits (Decimal.positional digits place).1 ∧
      ((Decimal.positional digits place).1.head? = some '0' →
        (Decimal.positional digits place).1 = ['0']) ∧
      ∀ c ∈ (Decimal.positional digits place).2, c.isDigit = true := by
  have zeros : ∀ {k : Nat} {c : Char}, c ∈ List.replicate k '0' → c.isDigit = true := by
    intro k c member
    rw [(List.mem_replicate.1 member).2]
    rfl
  cases place with
  | negSucc e =>
    refine ⟨⟨List.cons_ne_nil _ _, by simp [Decimal.positional]⟩, fun _ => rfl, ?_⟩
    intro c member
    rcases List.mem_append.1 member with padding | digit
    · exact zeros padding
    · exact isDigits.2 c digit
  | ofNat e =>
    refine ⟨⟨?_, ?_⟩, ?_, fun c member => isDigits.2 c (List.mem_of_mem_drop member)⟩
    · obtain ⟨c, tail, rfl, -⟩ := isDigits.exists_cons
      exact List.cons_ne_nil _ _
    · intro c member
      rcases List.mem_append.1 member with digit | padding
      · exact isDigits.2 c (List.mem_of_mem_take digit)
      · exact zeros padding
    · obtain ⟨c, tail, rfl, -⟩ := isDigits.exists_cons
      intro first
      obtain ⟨alone, ones⟩ := zero first
      obtain rfl : e = 0 := Int.ofNat.inj ones
      rw [alone]
      rfl

/-- The number written for a double is well formed. -/
theorem Numeral.wellFormed_ofDouble (x : Float) : (Numeral.ofDouble x).WellFormed := by
  have isDigits := isDigits_digitChars (Decimal.shortest .even x).digits
  have zero : (Decimal.digitChars (Decimal.shortest .even x).digits).head? = some '0' →
      Decimal.shortest .even x = ⟨0, 0⟩ := fun first =>
    (shortest_eq_zero_or_pos .even x).resolve_right fun positive => head?_digitChars positive first
  simp only [Numeral.ofDouble]
  generalize Decimal.shortest .even x = d at isDigits zero
  split
  · obtain ⟨whole, alone, fraction⟩ := positional_wellFormed
      (d.leading (Decimal.digitChars d.digits).length) isDigits fun first => by
        rw [zero first]
        exact ⟨rfl, rfl⟩
    refine ⟨whole, alone, ?_, by simp⟩
    rintro digits ⟨⟩
    split
    · exact ⟨List.cons_ne_nil _ _, by simp⟩
    · rename_i some
      exact ⟨by simpa using some, fraction⟩
  · obtain ⟨c, tail, parts, -⟩ := isDigits.exists_cons
    refine ⟨⟨by simp [parts], fun c member => isDigits.2 c (List.mem_of_mem_take member)⟩,
      fun first => ?_, ?_, ?_⟩
    · rw [zero (by simpa [parts] using first)]
      rfl
    · intro digits member
      split at member
      · cases member
      · rename_i some
        obtain rfl := Option.some.inj member
        exact ⟨by simpa using some, fun c member => isDigits.2 c (List.mem_of_mem_drop member)⟩
    · rintro e ⟨⟩
      exact isDigits_digitChars _

/-! ## Values -/

/-- A well-formed numeral is spelled by its text. -/
theorem Numeral.spells_text {n : Numeral} (wellFormed : n.WellFormed) : n.Spells n.text := by
  refine ⟨wellFormed, ?_⟩
  obtain ⟨negative, whole, fraction, exponent⟩ := n
  rw [Numeral.text, List.append_assoc, List.append_assoc]
  rcases exponent with _ | ⟨_ | _, digits⟩
  · exact ⟨_, .none, rfl⟩
  · exact ⟨_, .plus digits (.inl rfl), rfl⟩
  · exact ⟨_, .minus digits (.inl rfl), rfl⟩

namespace Value

mutual
/-- All numbers in the value can be written. -/
def WellFormed : Value → Prop
  | .number n => n.WellFormed
  | .array values => ElementsWellFormed values
  | .object members => MembersWellFormed members
  | _ => True

/-- All numbers in the elements can be written. -/
def ElementsWellFormed : List Value → Prop
  | [] => True
  | v :: rest => v.WellFormed ∧ ElementsWellFormed rest

/-- All numbers in the members can be written. -/
def MembersWellFormed : List (Option (List Char) × Value) → Prop
  | [] => True
  | (_, v) :: rest => v.WellFormed ∧ MembersWellFormed rest
end

mutual
/-- A well-formed value is spelled by its text over several lines. -/
theorem spells_prettyAt (depth : Nat) : ∀ v : Value, v.WellFormed → Spells v (v.prettyAt depth)
  | .null, _ => .null
  | .bool true, _ => .yes
  | .bool false, _ => .no
  | .number _, wellFormed => .number (Numeral.spells_text wellFormed)
  | .string s, _ => spells_quoted s
  | .array values, wellFormed =>
    spells_block_array depth (spells_prettyElements (depth + 1) values wellFormed)
  | .object members, wellFormed =>
    spells_block_object depth (spells_prettyMembers (depth + 1) members wellFormed)

theorem spells_prettyElements (depth : Nat) : ∀ values : List Value, ElementsWellFormed values →
    List.Forall₂ Spells values (prettyElements depth values)
  | [], _ => .nil
  | v :: rest, wellFormed =>
    .cons (spells_prettyAt depth v wellFormed.1) (spells_prettyElements depth rest wellFormed.2)

theorem spells_prettyMembers (depth : Nat) : ∀ members : List (Option (List Char) × Value),
    MembersWellFormed members → List.Forall₂ SpellsMember members (prettyMembers depth members)
  | [], _ => .nil
  | (name, v) :: rest, wellFormed =>
    .cons ⟨quoted name, _, spells_quoted name,
      .before rfl (spells_prettyAt depth v wellFormed.1), rfl⟩
      (spells_prettyMembers depth rest wellFormed.2)
end

/-- What is written for a value over several lines is read as that value. -/
theorem parse_pretty {v : Value} (wellFormed : v.WellFormed) :
    parse (String.ofList v.pretty) = some v :=
  parse_of_spells (spells_prettyAt 0 v wellFormed)

mutual
theorem spells_compact : ∀ v : Value, v.WellFormed → Spells v v.compact
  | .null, _ => .null
  | .bool true, _ => .yes
  | .bool false, _ => .no
  | .number _, wellFormed => .number (Numeral.spells_text wellFormed)
  | .string s, _ => spells_quoted s
  | .array values, wellFormed => spells_compact_array (spells_compactElements values wellFormed)
  | .object members, wellFormed =>
    spells_compact_object (spells_compactMembers members wellFormed)

theorem spells_compactElements : ∀ values : List Value, ElementsWellFormed values →
    List.Forall₂ Spells values (compactElements values)
  | [], _ => .nil
  | v :: rest, wellFormed =>
    .cons (spells_compact v wellFormed.1) (spells_compactElements rest wellFormed.2)

theorem spells_compactMembers : ∀ members : List (Option (List Char) × Value),
    MembersWellFormed members → List.Forall₂ SpellsMember members (compactMembers members)
  | [], _ => .nil
  | (name, v) :: rest, wellFormed =>
    .cons ⟨quoted name, _, spells_quoted name, spells_compact v wellFormed.1, rfl⟩
      (spells_compactMembers rest wellFormed.2)
end

/-- What is written for a value without blanks is read as that value. -/
theorem parse_compact {v : Value} (wellFormed : v.WellFormed) :
    parse (String.ofList v.compact) = some v :=
  parse_of_spells (spells_compact v wellFormed)

end Value

end Antimeridian.Json
