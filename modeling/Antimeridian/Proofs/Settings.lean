import Antimeridian.Settings.Text
import Antimeridian.Proofs.Json.Value

/-!
# Settings written and read

The text of settings holds every field, and reading it gives each field back from what was written
for it.  Nothing is lost but the latitude limit: one that is not finite is written as null, which is
no number, and a finite one is read from its number, which may lead to another double.
-/

namespace Antimeridian

open Json (Value DoubleFormat)

namespace Settings

section

variable [DoubleFormat]

/-! ## Fields -/

theorem wellFormed_toValue [DoubleFormat.Lawful] (s : Settings) : s.toValue.WellFormed :=
  ⟨Json.Numeral.wellFormed_ofNat _, Value.wellFormed_ofDouble _, trivial, trivial⟩

theorem recordFields_toValue (s : Settings) : Json.recordFields .refuse fieldNames s.toValue =
    some [some (.ofNat s.srid.toNat), some (.ofDouble s.polarLimitDegrees),
      some (.bool s.extendAntimeridian)] := rfl

/-- The value of settings gives them back, up to the way in which the latitude limit is read. -/
theorem ofValue?_toValue (s : Settings) : ofValue? s.toValue =
    (Value.ofDouble s.polarLimitDegrees).toDouble?.map fun limit =>
      { s with polarLimitDegrees := limit } := by
  rw [ofValue?, recordFields_toValue]
  simp only [fieldOr, Value.toNatBelow?_ofNat s.srid.toNat_lt, Option.bind_eq_bind, Option.bind_some]
  cases (Value.ofDouble s.polarLimitDegrees).toDouble? <;> simp [Value.toBool?]

/-! ## Texts -/

/-- The text of settings is read as the value they were written as. -/
theorem json_parse_text [DoubleFormat.Lawful] (s : Settings) : Json.parse s.text = some s.toValue :=
  Value.parse_pretty s.wellFormed_toValue

/-- Settings that were read have passed their check. -/
theorem parse_eq_ok_iff {text : String} {s : Settings} : parse text = .ok s ↔
    (Json.parse text).bind ofValue? = some s ∧ s.validate = .ok () := by
  unfold parse
  cases (Json.parse text).bind ofValue? with
  | none => simp
  | some t =>
    dsimp only
    split
    · rename_i check
      constructor
      · rintro ⟨⟩
        exact ⟨rfl, check⟩
      · rintro ⟨⟨⟩, -⟩
        rfl
    · rename_i fault check
      constructor
      · rintro ⟨⟩
      · rintro ⟨⟨⟩, valid⟩
        rw [check] at valid
        cases valid

/-- Reading what was written for settings gives them with the latitude limit that its number is
read as, if that is a valid one. -/
theorem parse_text_eq_ok [DoubleFormat.Lawful] {s t : Settings} : parse s.text = .ok t ↔
    s.polarLimitDegrees.isFinite = true ∧
      DoubleFormat.read? (DoubleFormat.write s.polarLimitDegrees) = some t.polarLimitDegrees ∧
      t = { s with polarLimitDegrees := t.polarLimitDegrees } ∧ t.validate = .ok () := by
  rw [parse_eq_ok_iff, json_parse_text, Option.bind_some, ofValue?_toValue,
    Value.toDouble?_ofDouble]
  by_cases finite : s.polarLimitDegrees.isFinite = true
  · rw [if_pos finite, Option.map_eq_some_iff]
    constructor
    · rintro ⟨⟨limit, read, rfl⟩, valid⟩
      exact ⟨finite, read, rfl, valid⟩
    · rintro ⟨-, read, same, valid⟩
      exact ⟨⟨_, read, same.symm⟩, valid⟩
  · rw [if_neg finite]
    constructor
    · rintro ⟨⟨⟩, -⟩
    · rintro ⟨isFinite, -⟩
      exact absurd isFinite finite

end

/-- A limit that passes the check is finite. -/
theorem isFinite_of_validate {s : Settings} (valid : s.validate = .ok ()) :
    s.polarLimitDegrees.isFinite = true := by
  by_contra infinite
  simp [validate, Settings.valid, infinite] at valid

/-- Reading what was written for settings succeeds exactly if the settings are valid, and gives the
settings back, as long as a finite latitude limit is read back from its number.  Whatever the text,
settings that were read are valid.  This holds for every format that writes numbers of JSON. -/
theorem parse_text_eq_ok_iff [DoubleFormat] [DoubleFormat.Lawful] (s : Settings)
    (readsBack : s.polarLimitDegrees.isFinite = true → Json.ReadsBack s.polarLimitDegrees) :
    ((∃ t, parse s.text = .ok t) ↔ s.validate = .ok ()) ∧
    (∀ t, parse s.text = .ok t → t = s) ∧
    ∀ text t, parse text = .ok t → t.validate = .ok () := by
  have same : ∀ t, parse s.text = .ok t → t = s := by
    intro t ok
    obtain ⟨finite, read, same, -⟩ := parse_text_eq_ok.1 ok
    have limit := Option.some.inj (read.symm.trans (readsBack finite))
    rw [same, limit]
  refine ⟨⟨?_, ?_⟩, same, fun text t ok => (parse_eq_ok_iff.1 ok).2⟩
  · rintro ⟨t, ok⟩
    rw [← same t ok]
    exact (parse_eq_ok_iff.1 ok).2
  · intro valid
    have finite := isFinite_of_validate valid
    exact ⟨s, parse_text_eq_ok.2 ⟨finite, readsBack finite, rfl, valid⟩⟩

/-- Settings with a limit that is written with an exponent. -/
def tiny : Settings := ⟨3857, 1e-7, true⟩

/-- Settings with a limit that is no number. -/
def limitless : Settings := ⟨0, Double.nan, false⟩

/-- The least limit is recovered; settings without a finite limit are written and not read. -/
theorem parse_text_tiny_limitless :
    (tiny.polarLimitDegrees.isFinite = true ∧ Json.ReadsBack tiny.polarLimitDegrees ∧
      parse tiny.text = .ok tiny) ∧
    limitless.polarLimitDegrees.isFinite = false ∧ ¬∃ t, parse limitless.text = .ok t := by
  have finite : tiny.polarLimitDegrees.isFinite = true := by decide +kernel
  have readsBack : Json.ReadsBack tiny.polarLimitDegrees := by
    unfold Json.ReadsBack
    decide +kernel
  have valid : tiny.validate = .ok () := by
    rw [validate, if_pos (by decide +kernel)]
  obtain ⟨exact, same, -⟩ := parse_text_eq_ok_iff tiny fun _ => readsBack
  obtain ⟨t, ok⟩ := exact.2 valid
  rw [same t ok] at ok
  have infinite : limitless.polarLimitDegrees.isFinite = false := by decide +kernel
  obtain ⟨refused, -⟩ := parse_text_eq_ok_iff limitless fun finite => by
    rw [infinite] at finite
    cases finite
  refine ⟨⟨finite, readsBack, ok⟩, infinite, fun read => ?_⟩
  rw [isFinite_of_validate (refused.1 read)] at infinite
  cases infinite

end Settings

end Antimeridian
