import Antimeridian.Proofs.Double.Bounds
import Antimeridian.Proofs.Json.Acceptance
import Antimeridian.Proofs.Settings

/-!
# The texts that are read as settings

Settings are read from an object with members for some of the fields, in any order, or from an array
with the values of the first fields.  `Describes` says which settings the members stand for, field
by field.  Exactly the texts of members that stand for valid settings are accepted.
-/

namespace Antimeridian

open Json (Value Numeral Spells)

/-- The members of an object. -/
abbrev Members := List (Option (List Char) × Value)

/-! ## Fields of a record -/

namespace Json

variable {members members' : Members} {name : String}

theorem mem_membersNamed {v : Value} :
    v ∈ membersNamed name members ↔ (some name.toList, v) ∈ members := by
  rw [membersNamed, List.mem_filterMap]
  constructor
  · rintro ⟨⟨n, w⟩, member, found⟩
    obtain ⟨named, found⟩ := Option.ite_none_right_eq_some.1 found
    rwa [← named, ← Option.some.inj found]
  · intro member
    exact ⟨_, member, if_pos rfl⟩

theorem length_membersNamed :
    (membersNamed name members).length = (members.map Prod.fst).count (some name.toList) := by
  rw [membersNamed, List.length_filterMap_eq_countP, List.count_eq_countP, List.countP_map]
  congr 1
  funext m
  by_cases named : m.1 = some name.toList <;> simp [named]

/-- A field has a value, or none, exactly if its name is given at most once. -/
theorem fieldValue_ne_none_iff :
    fieldValue members name ≠ none ↔ (members.map Prod.fst).count (some name.toList) ≤ 1 := by
  rw [← length_membersNamed, fieldValue]
  rcases membersNamed name members with _ | ⟨v, _ | ⟨w, rest⟩⟩ <;> simp

theorem fieldValue_perm (perm : members.Perm members') (name : String) :
    fieldValue members name = fieldValue members' name := by
  have named : (membersNamed name members).Perm (membersNamed name members') := perm.filterMap _
  rw [fieldValue, fieldValue]
  generalize membersNamed name members = values at named ⊢
  generalize membersNamed name members' = values' at named ⊢
  rcases values' with _ | ⟨v, _ | ⟨w, rest⟩⟩
  · rw [List.perm_nil.1 named]
  · rw [List.perm_singleton.1 named]
  · -- the values may be in another order, but there are still several
    have several := named.length_eq
    rcases values with _ | ⟨v', _ | ⟨w', rest'⟩⟩
    · cases several
    · cases several
    · rfl

theorem recordFields_perm (unknown : Unknown) (names : List String) (perm : members.Perm members') :
    recordFields unknown names (.object members) =
      recordFields unknown names (.object members') := by
  have values : fieldValue members = fieldValue members' := funext (fieldValue_perm perm)
  rw [recordFields, recordFields, perm.all_eq, values]

/-- A record that refuses unknown members has only members that are named after its fields. -/
theorem recordFields_object_eq_some {names : List String} {fields : List (Option Value)} :
    recordFields .refuse names (.object members) = some fields ↔
      (∀ m ∈ members, ∃ field ∈ names, m.1 = some field.toList) ∧
        names.mapM (fieldValue members) = some fields := by
  have admitted : (members.all fun m => admits .refuse names m.1) = true ↔
      ∀ m ∈ members, ∃ field ∈ names, m.1 = some field.toList := by
    rw [List.all_eq_true]
    refine forall₂_congr fun m _ => ?_
    cases m.1 with
    | none => simp [admits]
    | some n => simp [admits, @eq_comm _ n]
  rw [← admitted, recordFields]
  exact Option.ite_none_right_eq_some

/-- Members that are named after fields have different names exactly if no field has several
values. -/
theorem nodup_iff_of_known {names : List String}
    (known : ∀ m ∈ members, ∃ field ∈ names, m.1 = some field.toList) :
    (members.map Prod.fst).Nodup ↔ ∀ field ∈ names, fieldValue members field ≠ none := by
  simp only [List.nodup_iff_count_le_one, fieldValue_ne_none_iff]
  constructor
  · intro once field _
    exact once _
  · intro once n
    by_cases named : n ∈ members.map Prod.fst
    · obtain ⟨m, member, rfl⟩ := List.mem_map.1 named
      obtain ⟨field, inNames, equal⟩ := known m member
      rw [equal]
      exact once field inNames
    · rw [List.count_eq_zero_of_not_mem named]
      exact Nat.zero_le 1

/-- The field `name` is `x`: a member gives it a value that stands for `x`, or no member has its
name and `x` is what holds for an absent field. -/
def Gives {α : Type} (members : Members) (name : String) (StandsFor : Value → α → Prop)
    (absent x : α) : Prop :=
  (∃ v, (some name.toList, v) ∈ members ∧ StandsFor v x) ∨
    (∀ m ∈ members, m.1 ≠ some name.toList) ∧ x = absent

/-- A field is what is read from its value. -/
theorem gives_iff {α : Type} {StandsFor : Value → α → Prop} {read : Value → Option α} {absent x : α}
    {given : Option Value} (found : fieldValue members name = some given)
    (reads : ∀ v, (some name.toList, v) ∈ members → (read v = some x ↔ StandsFor v x)) :
    Gives members name StandsFor absent x ↔ Settings.fieldOr absent read given = some x := by
  unfold fieldValue at found
  have named := @mem_membersNamed members name
  split at found
  · rename_i none
    obtain rfl := Option.some.inj found
    simp only [none, List.not_mem_nil, false_iff] at named
    have unnamed : ∀ m ∈ members, m.1 ≠ some name.toList := by
      rintro ⟨n, v⟩ member rfl
      exact named member
    rw [Settings.fieldOr, Option.some_inj]
    constructor
    · rintro (⟨v, member, -⟩ | ⟨-, rfl⟩)
      · exact absurd member named
      · rfl
    · rintro rfl
      exact .inr ⟨unnamed, rfl⟩
  · rename_i v one
    obtain rfl := Option.some.inj found
    simp only [one, List.mem_singleton] at named
    have member := named.1 rfl
    rw [Settings.fieldOr, reads v member]
    constructor
    · rintro (⟨w, other, standsFor⟩ | ⟨unnamed, -⟩)
      · rwa [← named.2 other]
      · exact absurd rfl (unnamed _ member)
    · intro standsFor
      exact .inl ⟨v, member, standsFor⟩
  · cases found

theorem wellFormed_of_mem {name : Option (List Char)} {v : Value}
    (wellFormed : Value.MembersWellFormed members) (member : (name, v) ∈ members) :
    v.WellFormed := by
  induction members with
  | nil => cases member
  | cons m rest ih =>
    rcases List.mem_cons.1 member with rfl | later
    · exact wellFormed.1
    · exact ih wellFormed.2 later

theorem wellFormed_zip (names : List (Option (List Char))) {values : List Value}
    (wellFormed : Value.ElementsWellFormed values) :
    Value.MembersWellFormed (names.zip values) := by
  induction names generalizing values with
  | nil => trivial
  | cons name names ih =>
    cases values with
    | nil => trivial
    | cons v values => exact ⟨wellFormed.1, ih wellFormed.2⟩

end Json

/-! ## Values of settings -/

namespace Settings

/-- The member of the spatial reference: a whole number that fits, in digits alone. -/
def GivesSrid (members : Members) : UInt32 → Prop :=
  Json.Gives members "srid" (fun v n => v = .ofNat n.toNat) default.srid

/-- The member of the latitude limit: a number that is read as a double. -/
def GivesLimit (members : Members) : Float → Prop :=
  Json.Gives members "polar_lat_limit_degs" (fun v x => ∃ n, v = .number n ∧ n.toDouble? = some x)
    default.polarLimitDegrees

/-- The member that tells whether to go past the antimeridian: a truth value. -/
def GivesExtend (members : Members) : Bool → Prop :=
  Json.Gives members "extend_antimeridian" (fun v b => v = .bool b) default.extendAntimeridian

/-- The members stand for the settings: each is named after a field, no two after the same one, and
every field is what its member says, or the default. -/
structure Describes (members : Members) (s : Settings) : Prop where
  known : ∀ m ∈ members, ∃ field ∈ fieldNames, m.1 = some field.toList
  distinct : (members.map Prod.fst).Nodup
  srid : GivesSrid members s.srid
  limit : GivesLimit members s.polarLimitDegrees
  extend : GivesExtend members s.extendAntimeridian

variable {members : Members} {s : Settings}

/-- A spatial reference is read from a whole number that fits, written without a sign. -/
theorem toUInt32_eq_some_iff {v : Value} (wellFormed : v.WellFormed) {n : UInt32} :
    (v.toNatBelow? UInt32.size).map Nat.toUInt32 = some n ↔ v = .ofNat n.toNat := by
  constructor
  · intro read
    obtain ⟨k, found, rfl⟩ := Option.map_eq_some_iff.1 read
    unfold Value.toNatBelow? at found
    split at found
    · rename_i m
      split at found
      · rename_i value
        obtain ⟨below, equal⟩ := Option.ite_none_right_eq_some.1 found
        obtain rfl := Option.some.inj equal
        rw [Json.Numeral.eq_ofNat_of_toNat? wellFormed value, UInt32.toNat_ofNat_of_lt' below]
        rfl
      · cases found
    · cases found
  · rintro rfl
    rw [Value.toNatBelow?_ofNat n.toNat_lt]
    simp

theorem toDouble?_eq_some_iff {v : Value} {x : Float} :
    v.toDouble? = some x ↔ ∃ n, v = .number n ∧ n.toDouble? = some x := by
  cases v <;> simp [Value.toDouble?, Json.DoubleFormat.read?]

theorem toBool?_eq_some_iff {v : Value} {b : Bool} : v.toBool? = some b ↔ v = .bool b := by
  cases v <;> simp [Value.toBool?]

theorem fieldOr_map {α β : Type} (f : α → β) (absent : α) (read : Value → Option α)
    (given : Option Value) :
    (fieldOr absent read given).map f = fieldOr (f absent) (fun v => (read v).map f) given := by
  cases given <;> rfl

/-- The values of the three fields in an object. -/
structure Found (members : Members) (srid limit extend : Option Value) : Prop where
  known : ∀ m ∈ members, ∃ field ∈ fieldNames, m.1 = some field.toList
  srid : Json.fieldValue members "srid" = some srid
  limit : Json.fieldValue members "polar_lat_limit_degs" = some limit
  extend : Json.fieldValue members "extend_antimeridian" = some extend

section

variable {srid limit extend : Option Value}

/-- The fields of a record are read exactly if they are found among its members. -/
theorem recordFields_eq_some_iff : Json.recordFields .refuse fieldNames (.object members) =
    some [srid, limit, extend] ↔ Found members srid limit extend := by
  rw [Json.recordFields_object_eq_some]
  simp only [fieldNames, List.mapM_cons, List.mapM_nil, Option.bind_eq_bind,
    Option.bind_eq_some_iff, Option.pure_def]
  constructor
  · rintro ⟨known, _, first, _, ⟨_, second, _, ⟨_, third, _, ⟨⟩, ⟨⟩⟩, ⟨⟩⟩, ⟨⟩⟩
    exact ⟨known, first, second, third⟩
  · intro found
    exact ⟨found.known, _, found.srid, _, ⟨_, found.limit, _, ⟨_, found.extend, _, rfl, rfl⟩, rfl⟩,
      rfl⟩

/-- Settings are read from an object field by field. -/
theorem Found.read_iff (found : Found members srid limit extend) :
    ofValue? (.object members) = some s ↔
      fieldOr default.srid (fun v => (v.toNatBelow? UInt32.size).map Nat.toUInt32) srid =
        some s.srid ∧
      fieldOr default.polarLimitDegrees Value.toDouble? limit = some s.polarLimitDegrees ∧
      fieldOr default.extendAntimeridian Value.toBool? extend = some s.extendAntimeridian := by
  have number : fieldOr default.srid (fun v => (v.toNatBelow? UInt32.size).map Nat.toUInt32) srid =
      (fieldOr default.srid.toNat (Value.toNatBelow? UInt32.size) srid).map Nat.toUInt32 :=
    (fieldOr_map Nat.toUInt32 default.srid.toNat _ srid).symm
  rw [ofValue?, recordFields_eq_some_iff.2 found, number]
  simp only [Option.bind_eq_bind, Option.bind_eq_some_iff, Option.pure_def, Option.some_inj,
    Option.map_eq_some_iff]
  constructor
  · rintro ⟨n, sridRead, x, limitRead, b, extendRead, rfl⟩
    exact ⟨⟨n, sridRead, rfl⟩, limitRead, extendRead⟩
  · rintro ⟨⟨n, sridRead, equal⟩, limitRead, extendRead⟩
    exact ⟨n, sridRead, _, limitRead, _, extendRead, by rw [equal]⟩

/-- The members stand for settings exactly if these are read from them. -/
theorem Found.describes_iff (found : Found members srid limit extend)
    (wellFormed : Value.MembersWellFormed members) :
    Describes members s ↔ ofValue? (.object members) = some s := by
  have distinct : (members.map Prod.fst).Nodup := by
    rw [Json.nodup_iff_of_known found.known]
    simp [fieldNames, found.srid, found.limit, found.extend]
  have srid : GivesSrid members s.srid ↔ _ := Json.gives_iff found.srid fun v member =>
    toUInt32_eq_some_iff (Json.wellFormed_of_mem wellFormed member)
  have limit : GivesLimit members s.polarLimitDegrees ↔ _ :=
    Json.gives_iff found.limit fun v _ => toDouble?_eq_some_iff
  have extend : GivesExtend members s.extendAntimeridian ↔ _ :=
    Json.gives_iff found.extend fun v _ => toBool?_eq_some_iff
  rw [found.read_iff, ← srid, ← limit, ← extend]
  constructor
  · intro describes
    exact ⟨describes.srid, describes.limit, describes.extend⟩
  · rintro ⟨srid, limit, extend⟩
    exact ⟨found.known, distinct, srid, limit, extend⟩

end

theorem Describes.exists_found (describes : Describes members s) :
    ∃ srid limit extend, Found members srid limit extend := by
  have once := (Json.nodup_iff_of_known describes.known).1 describes.distinct
  have value : ∀ field ∈ fieldNames, ∃ given, Json.fieldValue members field = some given :=
    fun field inNames => Option.ne_none_iff_exists'.1 (once field inNames)
  obtain ⟨srid, sridFound⟩ := value "srid" (by decide)
  obtain ⟨limit, limitFound⟩ := value "polar_lat_limit_degs" (by decide)
  obtain ⟨extend, extendFound⟩ := value "extend_antimeridian" (by decide)
  exact ⟨srid, limit, extend, describes.known, sridFound, limitFound, extendFound⟩

/-- Settings are read from an object exactly if its members stand for them. -/
theorem ofValue?_object_iff (wellFormed : Value.MembersWellFormed members) :
    ofValue? (.object members) = some s ↔ Describes members s := by
  constructor
  · intro read
    have fields := read
    unfold ofValue? at fields
    split at fields
    · rename_i record
      exact ((recordFields_eq_some_iff.1 record).describes_iff wellFormed).2 read
    · cases fields
  · intro describes
    obtain ⟨srid, limit, extend, found⟩ := describes.exists_found
    exact (found.describes_iff wellFormed).1 describes

/-- A limit is valid if it is above zero and at most ninety degrees, which makes it finite. -/
theorem valid_iff :
    s.valid = true ↔ 0 < s.polarLimitDegrees ∧ s.polarLimitDegrees ≤ 90 := by
  have ninetyFinite : (90 : Float).isFinite = true := by decide +kernel
  obtain ⟨ninety, -, ninetyBelow⟩ := Double.isFinite_iff_rank.1 ninetyFinite
  simp only [valid, Bool.not_or, Bool.not_not, Bool.and_eq_true, Bool.not_eq_true',
    decide_eq_false_iff_not, Double.isFinite_iff_rank, Double.le_iff_rank, Double.lt_iff_rank,
    Double.rank_zero]
  constructor
  · rintro ⟨⟨⟨number, -⟩, above⟩, below⟩
    have low := mt (fun le => ⟨number, Double.isNumber_zero, le⟩) above
    have high := mt (fun less => ⟨ninety, number, less⟩) below
    exact ⟨⟨Double.isNumber_zero, number, by omega⟩, number, ninety, by omega⟩
  · rintro ⟨⟨-, -, positive⟩, number, -, below⟩
    refine ⟨⟨⟨number, by omega, by omega⟩, ?_⟩, ?_⟩
    · rintro ⟨-, -, above⟩
      omega
    · rintro ⟨-, -, less⟩
      omega

/-- Settings pass the check if the limit is positive and at most 90 degrees. -/
theorem validate_eq_ok_iff :
    s.validate = .ok () ↔ 0 < s.polarLimitDegrees ∧ s.polarLimitDegrees ≤ 90 := by
  rw [← valid_iff, validate]
  by_cases ok : s.valid = true <;> simp [ok]

/-! ## Texts of settings -/

/-- The members with the names of the first fields, in order. -/
def inOrder (values : List Value) : Members :=
  (fieldNames.map fun name => some name.toList).zip values

/-- The text writes the members as an object, or those of the first fields as an array of their
values. -/
inductive Writes : Members → List Char → Prop
  | object {members : Members} {t : List Char} :
    Spells (.object members) t → Writes members t
  | array {values : List Value} {t : List Char} : values.length ≤ fieldNames.length →
    Spells (.array values) t → Writes (inOrder values) t

/-- An array of the first fields is read like the object with these fields. -/
theorem ofValue?_array {values : List Value} (short : values.length ≤ fieldNames.length) :
    ofValue? (.array values) = ofValue? (.object (inOrder values)) := by
  rcases values with _ | ⟨srid, _ | ⟨limit, _ | ⟨extend, _ | ⟨more, rest⟩⟩⟩⟩
  · rfl
  · rfl
  · rfl
  · rfl
  · simp only [fieldNames, List.length_cons, List.length_nil] at short
    omega

/-- Settings do not depend on the order of the members. -/
theorem ofValue?_perm {members members' : Members} (perm : members.Perm members') :
    ofValue? (.object members) = ofValue? (.object members') := by
  rw [ofValue?, ofValue?, Json.recordFields_perm .refuse fieldNames perm]

/-- However members are written, they are read as the same settings. -/
theorem Writes.read {text : String} (writes : Writes members text.toList) :
    (Json.parse text).bind ofValue? = ofValue? (.object members) := by
  generalize letters : text.toList = t at writes
  cases writes with
  | object spells => rw [Json.parse_eq_some_iff.2 (letters ▸ spells), Option.bind_some]
  | array short spells =>
    rw [Json.parse_eq_some_iff.2 (letters ▸ spells), Option.bind_some, ofValue?_array short]

theorem Writes.wellFormed {t : List Char} (writes : Writes members t) :
    Value.MembersWellFormed members := by
  cases writes with
  | object spells => exact spells.wellFormed
  | array short spells => exact Json.wellFormed_zip _ spells.wellFormed

/-- Only objects and arrays with at most as many values as there are fields are read. -/
theorem exists_writes {text : String} (read : (Json.parse text).bind ofValue? = some s) :
    ∃ members, Writes members text.toList := by
  obtain ⟨v, parsed, read⟩ := Option.bind_eq_some_iff.1 read
  have spells := Json.parse_eq_some_iff.1 parsed
  cases v with
  | object members => exact ⟨members, .object spells⟩
  | array values =>
    refine ⟨_, .array ?_ spells⟩
    by_contra long
    simp [ofValue?, Json.recordFields, long] at read
  | null | bool | number | string => cases read

/-- Settings are read exactly from the texts that write members that stand for them, provided that
their latitude limit is above zero and at most ninety degrees.  The order of the members does not
matter, nor whether they are written as an object or as an array, and no other text is accepted. -/
theorem parse_eq_ok_iff_describes :
    (∀ members text s, Writes members text.toList →
      (parse text = .ok s ↔
        Describes members s ∧ 0 < s.polarLimitDegrees ∧ s.polarLimitDegrees ≤ 90)) ∧
    (∀ members members' text text', Writes members text.toList → Writes members' text'.toList →
      members.Perm members' → parse text = parse text') ∧
    ∀ text s, parse text = .ok s → ∃ members, Writes members text.toList := by
  refine ⟨?_, ?_, ?_⟩
  · intro members text s writes
    rw [parse_eq_ok_iff, writes.read, ofValue?_object_iff writes.wellFormed, validate_eq_ok_iff]
  · intro members members' text text' writes writes' perm
    rw [parse, parse, writes.read, writes'.read, ofValue?_perm perm]
  · intro text s ok
    exact exists_writes (parse_eq_ok_iff.1 ok).1

/-- A text that names the last field first, escapes a letter of a name and omits the limit. -/
def limitOmitted : String := "\x7b\"extend_antimeridian\": true, \"\\u0073rid\": 3857\x7d"

/-- A text that gives a field twice, under two spellings of its name. -/
def sridRepeated : String := "\x7b\"srid\": 3857, \"\\u0073rid\": 3857\x7d"

/-- A limit may be left out; a reference given twice is refused. -/
theorem parse_limitOmitted_sridRepeated :
    parse limitOmitted = .ok { srid := 3857, extendAntimeridian := true } ∧
    parse "[3857]" = parse "\x7b\"srid\": 3857\x7d" ∧ ∀ s, parse sridRepeated ≠ .ok s := by
  have omitted : Writes [(some "extend_antimeridian".toList, .bool true),
      (some "srid".toList, .ofNat 3857)] limitOmitted.toList :=
    .object (Json.parse_eq_some_iff.1 (by cbv))
  have array : Writes (inOrder [.ofNat 3857]) "[3857]".toList :=
    .array (by decide) (Json.parse_eq_some_iff.1 (by cbv))
  have object : Writes [(some "srid".toList, .ofNat 3857)] "\x7b\"srid\": 3857\x7d".toList :=
    .object (Json.parse_eq_some_iff.1 (by cbv))
  have repeated : Writes [(some "srid".toList, .ofNat 3857), (some "srid".toList, .ofNat 3857)]
      sridRepeated.toList :=
    .object (Json.parse_eq_some_iff.1 (by cbv))
  have limit : (0 : Float) < default.polarLimitDegrees ∧ default.polarLimitDegrees ≤ 90 := by
    decide +kernel
  obtain ⟨accepts, reorders, -⟩ := parse_eq_ok_iff_describes
  refine ⟨(accepts _ _ _ omitted).2 ⟨⟨?_, ?_, ?_, ?_, ?_⟩, limit⟩,
    reorders _ _ _ _ array object (.refl _), fun s ok => ?_⟩
  · simp [fieldNames]
  · simp
  · exact .inl ⟨.ofNat 3857, by simp, rfl⟩
  · exact .inr ⟨by simp, rfl⟩
  · exact .inl ⟨.bool true, by simp, rfl⟩
  · have distinct := ((accepts _ _ _ repeated).1 ok).1.distinct
    simp at distinct

end Settings

end Antimeridian
