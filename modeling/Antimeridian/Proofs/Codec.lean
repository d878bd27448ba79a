import Antimeridian.Codec
import Antimeridian.Proofs.Json.Value

/-!
# Geometry written and read

Every kind of value is read back from the text that is written for it, as long as its doubles are.
With a double that is not finite, the text holds a null where a number has to stand, and it is
refused.
-/

namespace Antimeridian

open Json (Value Numeral DoubleFormat ReadsBack)
open Json.Value (wellFormed_ofDouble)

/-! ## Doubles in values -/

def Coord.doubles (c : Coord) : List Float := [c.lat, c.lng]

def Vec2.doubles (v : Vec2) : List Float := [v.x, v.y]

def Vec3.doubles (v : Vec3) : List Float := [v.x, v.y, v.z]

def Box.doubles (b : Box) : List Float := [b.x.lo, b.x.hi, b.y.lo, b.y.hi, b.z.lo, b.z.hi]

/-- The doubles of all slots, also of those that are not meant. -/
def CellBoundary.doubles (b : CellBoundary) : List Float := b.slots.toList.flatMap Coord.doubles

def Ring.doubles (ring : Ring) : List Float := ring.flatMap Coord.doubles

def Polygon.doubles (p : Polygon) : List Float := p.exterior.doubles ++ p.holes.flatMap Ring.doubles

def Region.doubles (r : Region) : List Float := r.flatMap Polygon.doubles

namespace Codec

/-- What comes of reading `a`, with the doubles `xs`, back: `a` itself if all of them are finite and
read back from their numbers, and nothing if one of them is not finite. -/
structure Recovers [DoubleFormat] {α : Type} (result : Option α) (a : α) (xs : List Float) :
    Prop where
  whole : (∀ x ∈ xs, x.isFinite = true ∧ ReadsBack x) → result = some a
  broken : (∃ x ∈ xs, x.isFinite = false) → result = none

section

variable [DoubleFormat] {α β : Type} {result : Option α} {a : α} {xs ys : List Float}

theorem recovers_some (a : α) : Recovers (some a) a [] where
  whole _ := rfl
  broken := by
    rintro ⟨x, ⟨⟩, -⟩

/-- A part that is read before others; `make` puts the whole together. -/
theorem Recovers.bind {next : α → Option β} (make : α → β) (first : Recovers result a xs)
    (rest : ∀ a, Recovers (next a) (make a) ys) :
    Recovers (result.bind next) (make a) (xs ++ ys) where
  whole all := by
    rw [first.whole fun x member => all x (List.mem_append_left ys member), Option.bind_some]
    exact (rest a).whole fun x member => all x (List.mem_append_right xs member)
  broken := by
    rintro ⟨x, member, infinite⟩
    rcases List.mem_append.1 member with early | late
    · rw [first.broken ⟨x, early, infinite⟩]
      rfl
    · cases result with
      | none => rfl
      | some b => exact (rest b).broken ⟨x, late, infinite⟩

/-- A part that is read last. -/
theorem Recovers.last (make : α → β) (part : Recovers result a xs) :
    Recovers (result.bind fun a => some (make a)) (make a) xs := by
  have alone := part.bind make fun a => recovers_some (make a)
  rwa [List.append_nil] at alone

theorem recovers_double (x : Float) : Recovers (Value.ofDouble x).toDouble? x [x] where
  whole all := by
    obtain ⟨finite, readsBack⟩ := all x List.mem_cons_self
    rw [Value.toDouble?_ofDouble, if_pos finite]
    exact readsBack
  broken := by
    rintro ⟨y, member, infinite⟩
    obtain rfl := List.mem_singleton.1 member
    rw [Value.toDouble?_ofDouble, infinite]
    rfl

end

/-- The codec writes values that can be read back. -/
structure Faithful [DoubleFormat] {α : Type} (c : Codec α) (doubles : α → List Float) : Prop where
  wellFormed : ∀ a, (c.write a).WellFormed
  recovers : ∀ a, Recovers (c.read (c.write a)) a (doubles a)

section

variable [DoubleFormat]

/-- A codec that writes whole numbers has no doubles to lose. -/
theorem faithful_of_ofNat {α : Type} {c : Codec α} {code : α → Nat}
    (write : ∀ a, c.write a = .ofNat (code a)) (read : ∀ a, c.read (.ofNat (code a)) = some a) :
    c.Faithful fun _ => [] where
  wellFormed a := by
    rw [write]
    exact Numeral.wellFormed_ofNat (code a)
  recovers a := by
    rw [write, read]
    exact recovers_some a

theorem faithful_word : word.Faithful fun _ => [] := by
  refine faithful_of_ofNat (fun _ => rfl) fun n => ?_
  simp only [word]
  rw [Value.toNatBelow?_ofNat n.toNat_lt]
  simp

/-- A list is recovered if all its elements are. -/
theorem Faithful.list {α : Type} {r : Codec α} {doubles : α → List Float}
    (faithful : r.Faithful doubles) : r.list.Faithful fun as => as.flatMap doubles where
  wellFormed as := by
    induction as with
    | nil => trivial
    | cons a rest ih => exact ⟨faithful.wellFormed a, ih⟩
  recovers as := by
    change Recovers ((as.map r.write).mapM r.read) as _
    induction as with
    | nil => exact recovers_some []
    | cons a rest ih =>
      rw [List.map_cons, List.mapM_cons, List.flatMap_cons]
      exact (faithful.recovers a).bind (· :: rest) fun b => ih.last (b :: ·)

/-! ## Records of doubles -/

section

variable [DoubleFormat.Lawful]

theorem faithful_coord : coord.Faithful Coord.doubles where
  wellFormed _ := ⟨wellFormed_ofDouble _, wellFormed_ofDouble _, trivial⟩
  recovers c :=
    (recovers_double c.lat).bind (Coord.mk · c.lng) fun lat =>
      (recovers_double c.lng).last (Coord.mk lat)

theorem faithful_vec2 : vec2.Faithful Vec2.doubles where
  wellFormed _ := ⟨wellFormed_ofDouble _, wellFormed_ofDouble _, trivial⟩
  recovers v :=
    (recovers_double v.x).bind (Vec2.mk · v.y) fun x => (recovers_double v.y).last (Vec2.mk x)

theorem faithful_vec3 : vec3.Faithful Vec3.doubles where
  wellFormed _ := ⟨wellFormed_ofDouble _, wellFormed_ofDouble _, wellFormed_ofDouble _, trivial⟩
  recovers v :=
    (recovers_double v.x).bind (Vec3.mk · v.y v.z) fun x =>
      (recovers_double v.y).bind (Vec3.mk x · v.z) fun y => (recovers_double v.z).last (Vec3.mk x y)

theorem faithful_box : box.Faithful Box.doubles where
  wellFormed _ :=
    ⟨wellFormed_ofDouble _, wellFormed_ofDouble _, wellFormed_ofDouble _, wellFormed_ofDouble _,
      wellFormed_ofDouble _, wellFormed_ofDouble _, trivial⟩
  recovers b :=
    (recovers_double b.x.lo).bind (fun xmin => Box.mk ⟨xmin, b.x.hi⟩ b.y b.z) fun xmin =>
    (recovers_double b.x.hi).bind (fun xmax => Box.mk ⟨xmin, xmax⟩ b.y b.z) fun xmax =>
    (recovers_double b.y.lo).bind (fun ymin => Box.mk ⟨xmin, xmax⟩ ⟨ymin, b.y.hi⟩ b.z) fun ymin =>
    (recovers_double b.y.hi).bind (fun ymax => Box.mk ⟨xmin, xmax⟩ ⟨ymin, ymax⟩ b.z) fun ymax =>
    (recovers_double b.z.lo).bind (fun zmin => Box.mk ⟨xmin, xmax⟩ ⟨ymin, ymax⟩ ⟨zmin, b.z.hi⟩)
      fun zmin =>
    (recovers_double b.z.hi).last fun zmax => Box.mk ⟨xmin, xmax⟩ ⟨ymin, ymax⟩ ⟨zmin, zmax⟩

/-! ## Records of lists -/

theorem faithful_cellBoundary : cellBoundary.Faithful CellBoundary.doubles where
  wellFormed b := ⟨faithful_word.wellFormed b.count,
    faithful_coord.list.wellFormed b.slots.toList, trivial⟩
  recovers b := by
    have slots := faithful_coord.list.recovers b.slots.toList
    refine (faithful_word.recovers b.count).bind (CellBoundary.mk · b.slots) fun count => ?_
    -- the number of slots is checked, and it is ten for what was written
    constructor
    · intro all
      rw [slots.whole all]
      simp [Vector.toList]
    · intro infinite
      rw [slots.broken infinite]
      rfl

theorem faithful_ring : ring.Faithful Ring.doubles where
  wellFormed r := ⟨faithful_coord.list.wellFormed r, trivial⟩
  recovers r := faithful_coord.list.recovers r

theorem faithful_polygon : polygon.Faithful Polygon.doubles where
  wellFormed p :=
    ⟨faithful_ring.wellFormed p.exterior, faithful_ring.list.wellFormed p.holes, trivial⟩
  recovers p :=
    (faithful_ring.recovers p.exterior).bind (Polygon.mk · p.holes) fun exterior =>
      (faithful_ring.list.recovers p.holes).last (Polygon.mk exterior)

theorem faithful_region : region.Faithful Region.doubles where
  wellFormed r := ⟨faithful_polygon.list.wellFormed r, trivial⟩
  recovers r := faithful_polygon.list.recovers r

end

/-! ## Codes -/

theorem faithful_byteOrder : byteOrder.Faithful fun _ => [] := by
  refine faithful_of_ofNat (fun _ => rfl) fun o => ?_
  simp only [byteOrder]
  rw [Value.toNatBelow?_ofNat o.code.toNat_lt]
  cases o <;> rfl

theorem faithful_geometryType : geometryType.Faithful fun _ => [] := by
  refine faithful_of_ofNat (fun _ => rfl) fun t => ?_
  simp only [geometryType]
  rw [Value.toNatBelow?_ofNat t.code.toNat_lt]
  cases t <;> rfl

end

/-! ## Texts -/

/-- Reading back the text of any value recovers it. -/
def RoundTrips [DoubleFormat] {α : Type} (c : Codec α) (doubles : α → List Float) : Prop :=
  ∀ a, Recovers (c.parse (c.text a)) a (doubles a)

/-- What a faithful codec writes, it reads back. -/
theorem Faithful.roundTrips [DoubleFormat] {α : Type} {c : Codec α} {doubles : α → List Float}
    (faithful : c.Faithful doubles) : c.RoundTrips doubles := by
  intro a
  rw [parse, text, Value.parse_compact (faithful.wellFormed a), Option.bind_some]
  exact faithful.recovers a

/-- Every value of every kind is read back from its text, bit by bit, if all its doubles are finite
and read back from their numbers; and if one of them is not finite, its text is refused.  This holds
for every format that writes numbers of JSON. -/
theorem roundTrips_all [DoubleFormat] [DoubleFormat.Lawful] :
    cellIndex.RoundTrips (fun _ => []) ∧ coord.RoundTrips Coord.doubles ∧
    vec2.RoundTrips Vec2.doubles ∧ vec3.RoundTrips Vec3.doubles ∧ box.RoundTrips Box.doubles ∧
    cellBoundary.RoundTrips CellBoundary.doubles ∧ ring.RoundTrips Ring.doubles ∧
    polygon.RoundTrips Polygon.doubles ∧ region.RoundTrips Region.doubles ∧
    byteOrder.RoundTrips (fun _ => []) ∧ geometryType.RoundTrips fun _ => [] :=
  ⟨faithful_word.roundTrips, faithful_coord.roundTrips, faithful_vec2.roundTrips,
    faithful_vec3.roundTrips, faithful_box.roundTrips, faithful_cellBoundary.roundTrips,
    faithful_ring.roundTrips, faithful_polygon.roundTrips, faithful_region.roundTrips,
    faithful_byteOrder.roundTrips, faithful_geometryType.roundTrips⟩

/-- A boundary whose count is past its slots, with zeros of both signs. -/
def overcounted : CellBoundary := ⟨12, Vector.replicate 10 ⟨-0.0, 0.0⟩⟩

/-- A region with a coordinate that is no number in a hole. -/
def unplaced : Region := [⟨[⟨0.5, -1.2⟩], [[⟨0.5, Double.nan⟩]]⟩]

/-- A boundary with a wrong count is recovered; a region with a vertex that is nowhere is not. -/
theorem roundTrips_overcounted_unplaced :
    (∀ x ∈ overcounted.doubles, x.isFinite = true ∧ ReadsBack x) ∧
    cellBoundary.parse (cellBoundary.text overcounted) = some overcounted ∧
    (∃ x ∈ unplaced.doubles, x.isFinite = false) ∧
    region.parse (region.text unplaced) = none := by
  have readsBack : ∀ x ∈ overcounted.doubles, x.isFinite = true ∧ ReadsBack x := by
    unfold ReadsBack
    decide +kernel
  have infinite : ∃ x ∈ unplaced.doubles, x.isFinite = false := by decide +kernel
  obtain ⟨-, -, -, -, -, boundaries, -, -, regions, -⟩ := roundTrips_all
  exact ⟨readsBack, (boundaries overcounted).whole readsBack, infinite,
    (regions unplaced).broken infinite⟩

end Codec

end Antimeridian
