import Antimeridian.Fault

/-!
# Results with a log

A computation that reports what it does is a value: the events in order and, at the end, the result
or the fault that stopped it.  Events that came before a fault are kept.
-/

namespace Antimeridian

/-- How much an event matters. -/
inductive Level where
  | warn
  | debug
  | trace
  deriving DecidableEq, Repr

/-- Something worth reporting. -/
inductive Event where
  /-- The hole with this ring number was given to a part in the hemisphere `side`. -/
  | holeAssigned (ring : Nat) (side : Int)
  /-- A polygon was split. -/
  | polygonSplit (rings vertices crossings parts : Nat)
  /-- A polygon could not be split. -/
  | splitFailed (fault : Fault)
  /-- A boundary could not be opened at a pole. -/
  | openingFailed (fault : Fault)
  /-- An encoding came out in the wrong size. -/
  | encodingFailed (fault : Fault)
  /-- A cell boundary goes around a pole. -/
  | poleEnclosed (vertices : Nat)
  /-- A cell boundary lies across the antimeridian. -/
  | antimeridianCrossed (crossings : Nat)
  /-- The polygons of a region were split. -/
  | regionSplit (polygons parts : Nat)

namespace Event

/-- The level of an event. -/
def level : Event → Level
  | holeAssigned .. => .trace
  | splitFailed _ | openingFailed _ | encodingFailed _ => .warn
  | polygonSplit .. | poleEnclosed _ | antimeridianCrossed _ | regionSplit .. => .debug

/-- The text of an event. -/
def message : Event → String
  | holeAssigned ring side => s!"hole ring {ring} assigned to part with sign {side}"
  | polygonSplit rings vertices crossings parts =>
    s!"split polygon of {rings} rings ({vertices} vertices, {crossings} intersections) "
      ++ s!"into {parts} parts"
  | splitFailed fault => "antimeridian split failed: " ++ fault.message
  | openingFailed fault | encodingFailed fault => fault.message
  | poleEnclosed n => s!"cell boundary of {n} vertices encloses a pole"
  | antimeridianCrossed n => s!"cell boundary crosses the antimeridian {n} times"
  | regionSplit n m => s!"split {n} polygons at the antimeridian into {m}"

end Event

/-- A result or a fault, with the events on the way to it. -/
structure Traced (α : Type) where
  log : List Event
  result : Except Fault α

namespace Traced

variable {α β : Type}

/-- A result without events. -/
def ok (a : α) : Traced α := ⟨[], .ok a⟩

/-- A fault and the event that reports it. -/
def failWith (fault : Fault) (event : Event) : Traced α := ⟨[event], .error fault⟩

/-- A single event. -/
def note (event : Event) : Traced Unit := ⟨[event], .ok ()⟩

/-- Continues with the result; a fault ends the computation. -/
def bind (t : Traced α) (f : α → Traced β) : Traced β :=
  match t.result with
  | .ok a =>
    let rest := f a
    ⟨t.log ++ rest.log, rest.result⟩
  | .error fault => ⟨t.log, .error fault⟩

/-- A result or fault that was reached without events. -/
def ofExcept (r : Except Fault α) : Traced α := ⟨[], r⟩

instance : Monad Traced where
  pure := ok
  bind := bind

/-- The result does not depend on the events. -/
theorem result_bind (t : Traced α) (f : α → Traced β) :
    (t >>= f).result = t.result >>= fun a => (f a).result := by
  obtain ⟨log, result⟩ := t
  cases result <;> rfl

end Traced

end Antimeridian
