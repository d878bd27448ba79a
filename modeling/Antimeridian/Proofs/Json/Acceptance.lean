import Antimeridian.Proofs.Json.Printer

/-!
# What the reader accepts

Whatever the reader takes off the front of its input spells what it returns.  Together with the
converse, a text is read as a value exactly if it spells that value, so every text spells at most
one.
-/

namespace Antimeridian.Json

/-- The blanks before the rest of an input. -/
theorem exists_blanks (t : Input) : ∃ b, (∀ c ∈ b, isBlank c = true) ∧ t = b ++ skipBlanks t :=
  ⟨t.takeWhile isBlank, fun _ member => List.mem_takeWhile_imp member,
    List.takeWhile_append_dropWhile.symm⟩

theorem of_skipText {text : List Char} {t rest : Input} (read : skipText text t = some rest) :
    t = text ++ rest := by
  induction text generalizing t with
  | nil => exact Option.some.inj read
  | cons c text ih =>
    cases t with
    | nil => cases read
    | cons d t =>
      rw [skipText] at read
      split at read
      · rename_i equal
        rw [equal, ih read]
        rfl
      · cases read

/-! ## Numbers -/

section

variable {t rest : Input}

theorem of_readDigits {digits : List Char} (read : readDigits t = some (digits, rest)) :
    IsDigits digits ∧ t = digits ++ rest := by
  simp only [readDigits] at read
  split at read
  · cases read
  · rename_i some
    obtain ⟨rfl, rfl⟩ := Prod.mk.inj (Option.some.inj read)
    exact ⟨⟨by simpa using some, fun c member => List.mem_takeWhile_imp member⟩,
      List.takeWhile_append_dropWhile.symm⟩

/-- A whole part that is read has no leading zero. -/
theorem of_readWhole {whole : List Char} (read : readWhole t = some (whole, rest)) :
    IsDigits whole ∧ (whole.head? = some '0' → whole = ['0']) ∧ t = whole ++ rest := by
  unfold readWhole at read
  split at read
  · obtain ⟨rfl, rfl⟩ := Prod.mk.inj (Option.some.inj read)
    exact ⟨⟨List.cons_ne_nil _ _, by simp⟩, fun _ => rfl, rfl⟩
  · rename_i nonzero
    obtain ⟨isDigits, rfl⟩ := of_readDigits read
    refine ⟨isDigits, fun first => ?_, rfl⟩
    obtain ⟨c, tail, rfl, -⟩ := isDigits.exists_cons
    obtain rfl := Option.some.inj first
    exact absurd rfl (nonzero _)

theorem of_readFraction (n : Numeral) (read : readFraction t = some (n.fraction, rest)) :
    (∀ digits ∈ n.fraction, IsDigits digits) ∧ t = n.fractionText ++ rest := by
  unfold Numeral.fractionText
  unfold readFraction at read
  split at read
  · obtain ⟨p, digits, equal⟩ := Option.map_eq_some_iff.1 read
    obtain ⟨fraction, rfl⟩ := Prod.mk.inj equal
    obtain ⟨isDigits, rfl⟩ := of_readDigits digits
    rw [← fraction]
    refine ⟨?_, rfl⟩
    rintro d ⟨⟩
    exact isDigits
  · obtain ⟨fraction, rfl⟩ := Prod.mk.inj (Option.some.inj read)
    rw [← fraction]
    exact ⟨by simp, rfl⟩

theorem of_readExponentDigits {e : Exponent} {mark : Char} (isMark : mark = 'e' ∨ mark = 'E')
    (read : readExponentDigits t = some (e, rest)) :
    ∃ u, SpellsExponent (some e) u ∧ IsDigits e.digits ∧ mark :: t = u ++ rest := by
  unfold readExponentDigits at read
  split at read
  all_goals
    obtain ⟨p, digits, equal⟩ := Option.map_eq_some_iff.1 read
    obtain ⟨rfl, rfl⟩ := Prod.mk.inj equal
    obtain ⟨isDigits, rfl⟩ := of_readDigits digits
  · exact ⟨_, .minus p.1 isMark, isDigits, rfl⟩
  · exact ⟨_, .plus p.1 isMark, isDigits, rfl⟩
  · exact ⟨_, .unsigned p.1 isMark, isDigits, rfl⟩

theorem of_readExponent {exponent : Option Exponent}
    (read : readExponent t = some (exponent, rest)) :
    ∃ u, SpellsExponent exponent u ∧ (∀ e ∈ exponent, IsDigits e.digits) ∧ t = u ++ rest := by
  have marked : ∀ {mark : Char} {after : Input}, mark = 'e' ∨ mark = 'E' →
      (readExponentDigits after).map (fun p => (some p.1, p.2)) = some (exponent, rest) →
      ∃ u, SpellsExponent exponent u ∧ (∀ e ∈ exponent, IsDigits e.digits) ∧
        mark :: after = u ++ rest := by
    intro mark after isMark read
    obtain ⟨p, digits, equal⟩ := Option.map_eq_some_iff.1 read
    obtain ⟨rfl, rfl⟩ := Prod.mk.inj equal
    obtain ⟨u, spells, isDigits, parts⟩ := of_readExponentDigits isMark digits
    refine ⟨u, spells, ?_, parts⟩
    rintro e ⟨⟩
    exact isDigits
  unfold readExponent at read
  split at read
  · exact marked (.inl rfl) read
  · exact marked (.inr rfl) read
  · obtain ⟨rfl, rfl⟩ := Prod.mk.inj (Option.some.inj read)
    exact ⟨[], .none, by simp, rfl⟩

theorem of_readUnsigned {negative : Bool} {n : Numeral}
    (read : readUnsigned negative t = some (n, rest)) :
    n.negative = negative ∧ n.WellFormed ∧
      ∃ e, SpellsExponent n.exponent e ∧ t = n.whole ++ (n.fractionText ++ e) ++ rest := by
  simp only [readUnsigned, Option.bind_eq_bind, Option.bind_eq_some_iff] at read
  obtain ⟨w, whole, f, fraction, x, exponent, equal⟩ := read
  obtain ⟨rfl, rfl⟩ := Prod.mk.inj (Option.some.inj equal)
  obtain ⟨isDigits, zero, rfl⟩ := of_readWhole whole
  obtain ⟨fractionDigits, parts⟩ := of_readFraction ⟨negative, w.1, f.1, x.1⟩ fraction
  obtain ⟨e, spells, exponentDigits, rest⟩ := of_readExponent exponent
  refine ⟨rfl, ⟨isDigits, zero, fractionDigits, exponentDigits⟩, e, spells, ?_⟩
  rw [parts, rest]
  simp only [List.append_assoc]

/-- A numeral that is read is spelled by what was used up. -/
theorem of_readNumeral {n : Numeral} (read : readNumeral t = some (n, rest)) :
    ∃ u, n.Spells u ∧ t = u ++ rest := by
  unfold readNumeral at read
  split at read
  all_goals
    obtain ⟨negative, wellFormed, e, spells, rfl⟩ := of_readUnsigned read
    refine ⟨_, ⟨wellFormed, e, spells, rfl⟩, ?_⟩
    simp [Numeral.signText, negative]

end

/-! ## Strings -/

/-- The texts spell the code units of a string literal up to the quote that ends it. -/
def SpellsLiteral (units : List Nat) (t rest : Input) : Prop :=
  ∃ ts, List.Forall₂ SpellsUnit units ts ∧ t = ts.flatten ++ '"' :: rest

theorem SpellsUnit.cons {unit : Nat} {units : List Nat} {u t rest : Input}
    (spells : SpellsUnit unit u)
    (later : ∀ {units : List Nat}, readUnits t = some (units, rest) → SpellsLiteral units t rest)
    (read : (readUnits t).bind (fun p => some (unit :: p.1, p.2)) = some (units, rest)) :
    SpellsLiteral units (u ++ t) rest := by
  obtain ⟨p, after, equal⟩ := Option.bind_eq_some_iff.1 read
  obtain ⟨rfl, rfl⟩ := Prod.mk.inj (Option.some.inj equal)
  obtain ⟨ts, each, rfl⟩ := later after
  exact ⟨u :: ts, .cons spells each, by simp⟩

/-- A string literal that is read is spelled unit by unit. -/
theorem of_readUnits {t rest : Input} {units : List Nat} (read : readUnits t = some (units, rest)) :
    SpellsLiteral units t rest := by
  fun_induction readUnits t generalizing units with
  | case1 after =>
    obtain ⟨rfl, rfl⟩ := Prod.mk.inj (Option.some.inj read)
    exact ⟨[], .nil, rfl⟩
  | case2 a b c d t ih =>
    obtain ⟨unit, word, read⟩ := Option.bind_eq_some_iff.1 read
    exact (SpellsUnit.word word).cons ih read
  | case3 c t notWord ih =>
    obtain ⟨d, escape, read⟩ := Option.bind_eq_some_iff.1 read
    exact (SpellsUnit.short escape).cons ih read
  | case4 => cases read
  | case5 c t notQuote notWord notShort plain ih =>
    simp only [Bool.or_eq_true, decide_eq_true_eq, not_or, not_lt] at plain
    exact (SpellsUnit.plain plain.1 notQuote plain.2).cons ih read
  | case6 => cases read

theorem of_readString {t rest : Input} {s : Option (List Char)}
    (read : readString t = some (s, rest)) :
    ∃ u, Spells (.string s) ('"' :: u) ∧ t = u ++ rest := by
  obtain ⟨p, found, equal⟩ := Option.map_eq_some_iff.1 read
  obtain ⟨rfl, rfl⟩ := Prod.mk.inj equal
  obtain ⟨ts, spells, rfl⟩ := of_readUnits found
  exact ⟨_, .string spells, by simp⟩

/-! ## Values -/

/-- Blanks stand before what is left after them. -/
theorem Spells.of_skipBlanks {v : Value} {t u rest : Input} (spells : Spells v u)
    (start : skipBlanks t = u ++ rest) : ∃ w, Spells v w ∧ t = w ++ rest := by
  obtain ⟨b, blank, parts⟩ := exists_blanks t
  refine ⟨b ++ u, spells.indent blank, ?_⟩
  rw [List.append_assoc, ← start]
  exact parts

/-- Brackets or braces around `u` that spell a value. -/
theorem Spells.of_enclosed {v : Value} {opening closing : Char} {t u after rest : Input}
    (spells : Spells v (opening :: (u ++ [closing]))) (start : skipBlanks t = opening :: after)
    (inside : after = u ++ closing :: rest) : ∃ w, Spells v w ∧ t = w ++ rest := by
  refine spells.of_skipBlanks ?_
  rw [start, inside, List.cons_append, List.append_assoc]
  rfl

/-- A word, such as null, that spells a value. -/
theorem Spells.of_word {v w : Value} {c : Char} {word : List Char} {t after rest : Input}
    (spells : Spells v (c :: word)) (start : skipBlanks t = c :: after)
    (read : (skipText word after).map (fun rest => (v, rest)) = some (w, rest)) :
    ∃ u, Spells w u ∧ t = u ++ rest := by
  obtain ⟨r, text, equal⟩ := Option.map_eq_some_iff.1 read
  obtain ⟨rfl, rfl⟩ := Prod.mk.inj equal
  rw [of_skipText text] at start
  exact spells.of_skipBlanks start

mutual
/-- What is read as a value spells it. -/
theorem of_readValue : ∀ (steps : Nat) {t rest : Input} {v : Value},
    readValue steps t = some (v, rest) → ∃ u, Spells v u ∧ t = u ++ rest
  | 0, _, _, _, read => by cases read
  | steps + 1, t, rest, v, read => by
    rw [readValue] at read
    split at read
    · rename_i after start
      obtain ⟨p, string, equal⟩ := Option.map_eq_some_iff.1 read
      obtain ⟨rfl, rfl⟩ := Prod.mk.inj equal
      obtain ⟨u, spells, rfl⟩ := of_readString string
      exact spells.of_skipBlanks start
    · rename_i after start
      obtain ⟨b, blank, parts⟩ := exists_blanks after
      split at read
      · rename_i closes
        obtain ⟨rfl, rfl⟩ := Prod.mk.inj (Option.some.inj read)
        exact (Spells.emptyArray blank).of_enclosed start (closes ▸ parts)
      · obtain ⟨p, elements, equal⟩ := Option.map_eq_some_iff.1 read
        obtain ⟨rfl, rfl⟩ := Prod.mk.inj equal
        obtain ⟨u, spells, inside⟩ := of_readElements steps elements
        refine (Spells.array (spells.indent blank)).of_enclosed start ?_
        rw [List.append_assoc, ← inside]
        exact parts
    · rename_i after start
      obtain ⟨b, blank, parts⟩ := exists_blanks after
      split at read
      · rename_i closes
        obtain ⟨rfl, rfl⟩ := Prod.mk.inj (Option.some.inj read)
        exact (Spells.emptyObject blank).of_enclosed start (closes ▸ parts)
      · obtain ⟨p, members, equal⟩ := Option.map_eq_some_iff.1 read
        obtain ⟨rfl, rfl⟩ := Prod.mk.inj equal
        obtain ⟨u, spells, inside⟩ := of_readMembers steps members
        refine (Spells.object (spells.indent blank)).of_enclosed start ?_
        rw [List.append_assoc, ← inside]
        exact parts
    · rename_i start
      exact Spells.null.of_word start read
    · rename_i start
      exact Spells.yes.of_word start read
    · rename_i start
      exact Spells.no.of_word start read
    · obtain ⟨p, numeral, equal⟩ := Option.map_eq_some_iff.1 read
      obtain ⟨rfl, rfl⟩ := Prod.mk.inj equal
      obtain ⟨u, spells, parts⟩ := of_readNumeral numeral
      exact (Spells.number spells).of_skipBlanks parts

/-- What is read as elements spells them, and the bracket comes after it. -/
theorem of_readElements : ∀ (steps : Nat) {t rest : Input} {values : List Value},
    readElements steps t = some (values, rest) → ∃ u, SpellsElements values u ∧ t = u ++ ']' :: rest
  | 0, _, _, _, read => by cases read
  | steps + 1, t, rest, values, read => by
    rw [readElements] at read
    obtain ⟨⟨v, after⟩, value, next⟩ := Option.bind_eq_some_iff.1 read
    obtain ⟨u, spells, rfl⟩ := of_readValue steps value
    obtain ⟨b, blank, parts⟩ := exists_blanks after
    dsimp only at next
    split at next
    · rename_i closes
      obtain ⟨rfl, rfl⟩ := Prod.mk.inj (Option.some.inj next)
      refine ⟨u ++ b, .last (spells.trail blank), ?_⟩
      rw [List.append_assoc, ← closes, ← parts]
    · rename_i continues
      obtain ⟨q, later, equal⟩ := Option.bind_eq_some_iff.1 next
      obtain ⟨rfl, rfl⟩ := Prod.mk.inj (Option.some.inj equal)
      obtain ⟨w, elements, inside⟩ := of_readElements steps later
      refine ⟨_, .more (spells.trail blank) elements, ?_⟩
      rw [List.append_assoc, List.append_assoc, List.cons_append, ← inside, ← continues, ← parts]
    · cases next

/-- What is read as members spells them, and the brace comes after it. -/
theorem of_readMembers : ∀ (steps : Nat) {t rest : Input}
    {members : List (Option (List Char) × Value)}, readMembers steps t = some (members, rest) →
      ∃ u, SpellsMembers members u ∧ t = u ++ '\x7d' :: rest
  | 0, _, _, _, read => by cases read
  | steps + 1, t, rest, members, read => by
    rw [readMembers] at read
    split at read
    · rename_i start
      obtain ⟨⟨name, afterName⟩, string, next⟩ := Option.bind_eq_some_iff.1 read
      obtain ⟨u, quoted, rfl⟩ := of_readString string
      obtain ⟨w, spellsName, rfl⟩ := quoted.of_skipBlanks start
      obtain ⟨b, blank, parts⟩ := exists_blanks afterName
      dsimp only at next
      split at next
      · rename_i colon
        obtain ⟨⟨v, after⟩, value, final⟩ := Option.bind_eq_some_iff.1 next
        obtain ⟨x, spells, rfl⟩ := of_readValue steps value
        obtain ⟨b', blank', parts'⟩ := exists_blanks after
        dsimp only at final
        split at final
        · rename_i closes
          obtain ⟨rfl, rfl⟩ := Prod.mk.inj (Option.some.inj final)
          refine ⟨_, .last (spellsName.trail blank) (spells.trail blank'), ?_⟩
          rw [List.append_assoc, List.append_assoc, List.cons_append, List.append_assoc, ← closes,
            ← parts', ← colon, ← parts]
        · rename_i continues
          obtain ⟨q, later, equal⟩ := Option.bind_eq_some_iff.1 final
          obtain ⟨rfl, rfl⟩ := Prod.mk.inj (Option.some.inj equal)
          obtain ⟨y, others, inside⟩ := of_readMembers steps later
          refine ⟨_, .more (spellsName.trail blank) (spells.trail blank') others, ?_⟩
          rw [List.append_assoc, List.append_assoc, List.cons_append, List.append_assoc,
            List.append_assoc, List.cons_append, ← inside, ← continues, ← parts', ← colon, ← parts]
        · cases final
      · cases next
    · cases read
end

/-- A text is read as a value exactly if it spells that value. -/
theorem parse_eq_some_iff {text : String} {v : Value} :
    parse text = some v ↔ Spells v text.toList := by
  constructor
  · intro read
    simp only [parse] at read
    split at read
    · rename_i found
      split at read
      · rename_i blanks
        obtain rfl := Option.some.inj read
        obtain ⟨u, spells, parts⟩ := of_readValue _ found
        obtain ⟨b, blank, last⟩ := exists_blanks _
        rw [List.isEmpty_iff.1 blanks, List.append_nil] at last
        rw [parts, last]
        exact spells.trail blank
      · cases read
    · cases read
  · intro spells
    have read := parse_of_spells spells
    rwa [String.ofList_toList] at read

/-! ## Whole numbers -/

theorem digitChars_of_isDigit {c : Char} (digit : c.isDigit = true) :
    Decimal.digitChars (c.toNat - '0'.toNat) = [c] ∧ c.toNat - '0'.toNat < 10 := by
  simp only [Char.isDigit, Bool.and_eq_true, decide_eq_true_eq, ge_iff_le, UInt32.le_iff_toNat_le]
    at digit
  have low : 48 ≤ c.toNat := digit.1
  have high : c.toNat ≤ 57 := digit.2
  rw [← Char.ofNat_toNat c]
  generalize c.toNat = n at low high
  interval_cases n <;> decide

/-- Digits without a leading zero are the digits of the number that they stand for. -/
theorem digitChars_digitsValue {digits : List Char} (isDigits : IsDigits digits)
    (zero : digits.head? = some '0' → digits = ['0']) :
    Decimal.digitChars (digitsValue digits) = digits := by
  induction digits using List.reverseRecOn with
  | nil => exact absurd rfl isDigits.1
  | append_singleton init c ih =>
    obtain ⟨last, small⟩ := digitChars_of_isDigit (isDigits.2 c (by simp))
    have value : digitsValue (init ++ [c]) = 10 * digitsValue init + (c.toNat - '0'.toNat) := by
      simp [digitsValue, appendDigit]
    cases init with
    | nil => exact (congrArg Decimal.digitChars (by simpa [digitsValue] using value)).trans last
    | cons d init =>
      have nonzero : d ≠ '0' := by
        rintro rfl
        simpa using zero rfl
      have earlier := ih
        ⟨List.cons_ne_nil d init, fun e member => isDigits.2 e (List.mem_append_left [c] member)⟩
        fun first => absurd (Option.some.inj first) nonzero
      have positive : 0 < digitsValue (d :: init) := by
        apply Nat.pos_of_ne_zero
        intro none
        rw [none] at earlier
        exact nonzero (List.cons.inj earlier).1.symm
      rw [value, Decimal.digitChars, ← Nat.toDigits_append_toDigits (by decide) positive small]
      exact congrArg₂ _ earlier last

/-- A whole number without a sign is written in one way. -/
theorem Numeral.eq_ofNat_of_toNat? {n : Numeral} {k : Nat} (wellFormed : n.WellFormed)
    (value : n.toNat? = some k) : n = .ofNat k := by
  unfold Numeral.toNat? at value
  split at value
  · cases value
  · rename_i plain
    obtain rfl := Option.some.inj value
    obtain ⟨negative, whole, fraction, exponent⟩ := n
    simp only [Bool.or_eq_true, not_or, Bool.not_eq_true, Option.isSome_eq_false_iff,
      Option.isNone_iff_eq_none] at plain
    obtain ⟨⟨rfl, rfl⟩, rfl⟩ := plain
    rw [Numeral.ofNat, digitChars_digitsValue wellFormed.whole wellFormed.zero]

/-! ## Numbers in spelled values -/

mutual
/-- The numbers in a value that a text spells can be written. -/
theorem Spells.wellFormed : ∀ {v : Value} {t : List Char}, Spells v t → v.WellFormed
  | _, _, .before _ spells => spells.wellFormed
  | _, _, .after _ spells => spells.wellFormed
  | _, _, .number spells => spells.wellFormed
  | _, _, .array elements => elements.wellFormed
  | _, _, .object members => members.wellFormed
  | _, _, .null | _, _, .yes | _, _, .no | _, _, .string _ | _, _, .emptyArray _
  | _, _, .emptyObject _ => trivial

theorem SpellsElements.wellFormed : ∀ {values : List Value} {t : List Char},
    SpellsElements values t → Value.ElementsWellFormed values
  | _, _, .last spells => ⟨spells.wellFormed, trivial⟩
  | _, _, .more spells elements => ⟨spells.wellFormed, elements.wellFormed⟩

theorem SpellsMembers.wellFormed : ∀ {members : List (Option (List Char) × Value)}
    {t : List Char}, SpellsMembers members t → Value.MembersWellFormed members
  | _, _, .last _ spells => ⟨spells.wellFormed, trivial⟩
  | _, _, .more _ spells members => ⟨spells.wellFormed, members.wellFormed⟩
end

end Antimeridian.Json
