import SwerveLocalization.Plane.Vector

/-!
# The four wheels

A swerve chassis has four wheels that are steered and driven one by one.
Whatever is known of each of them is kept in one record, always in the order
front left, front right, back left, back right.
-/

namespace SwerveLocalization

/-- One value for each of the four wheels. -/
structure Wheels (β : Type) where
  frontLeft : β
  frontRight : β
  backLeft : β
  backRight : β
deriving DecidableEq

namespace Wheels

variable {β γ δ : Type}

/-- The same value for every wheel. -/
def replicate (b : β) : Wheels β := ⟨b, b, b, b⟩

/-- The values in wheel order. -/
def toList (w : Wheels β) : List β := [w.frontLeft, w.frontRight, w.backLeft, w.backRight]

/-- Applies a function to the value of each wheel. -/
def map (f : β → γ) (w : Wheels β) : Wheels γ :=
  ⟨f w.frontLeft, f w.frontRight, f w.backLeft, f w.backRight⟩

/-- Combines the values of each wheel in two records. -/
def zipWith (f : β → γ → δ) (w : Wheels β) (v : Wheels γ) : Wheels δ :=
  ⟨f w.frontLeft v.frontLeft, f w.frontRight v.frontRight, f w.backLeft v.backLeft,
    f w.backRight v.backRight⟩

/-- The values of all wheels, if each wheel has one. -/
def allSome? : Wheels (Option β) → Option (Wheels β)
  | ⟨some a, some b, some c, some d⟩ => some ⟨a, b, c, d⟩
  | _ => none

@[simp] theorem length_toList (w : Wheels β) : w.toList.length = 4 := rfl

@[simp] theorem toList_map (f : β → γ) (w : Wheels β) : (w.map f).toList = w.toList.map f := rfl

@[simp] theorem toList_zipWith (f : β → γ → δ) (w : Wheels β) (v : Wheels γ) :
    (w.zipWith f v).toList = List.zipWith f w.toList v.toList := rfl

/-- All wheels have a value exactly if the record is one of present values. -/
theorem allSome?_eq_some_iff {w : Wheels (Option β)} {v : Wheels β} :
    w.allSome? = some v ↔ w = v.map some := by
  obtain ⟨a, b, c, d⟩ := w
  obtain ⟨a', b', c', d'⟩ := v
  cases a <;> cases b <;> cases c <;> cases d <;> simp [allSome?, map]

end Wheels

/-- How a wheel moves: its speed in metres per second and its steering angle. -/
structure WheelState (α : Type) where
  speed : α
  angle : α
deriving DecidableEq

/-- How far a wheel has rolled, in metres, and its steering angle. -/
structure WheelTravel (α : Type) where
  distance : α
  angle : α
deriving DecidableEq

variable {α : Type} [Scalar α]

namespace WheelState

/-- A wheel that stands still and looks straight ahead. -/
def rest : WheelState α := ⟨0, 0⟩

/-- The state of a wheel with a given velocity. A wheel that hardly moves is
at rest, for its direction would be noise. -/
def ofVelocity (v : Vec2 α) : WheelState α :=
  let speed := v.norm
  if speed < 1e-12 then rest else ⟨speed, v.direction⟩

/-- The velocity of a wheel in the chassis frame. -/
def velocity (s : WheelState α) : Vec2 α := .polar s.speed s.angle

/-- Whether speed and angle are finite. -/
def isFinite (s : WheelState α) : Bool := Scalar.isFinite s.speed && Scalar.isFinite s.angle

end WheelState

namespace WheelTravel

/-- The path of a wheel that kept its steering angle. -/
def path (t : WheelTravel α) : Vec2 α := .polar t.distance t.angle

/-- Whether distance and angle are finite. -/
def isFinite (t : WheelTravel α) : Bool := Scalar.isFinite t.distance && Scalar.isFinite t.angle

end WheelTravel

namespace Wheels

/-- The largest speed of any wheel, regardless of its sign. -/
def topSpeed (states : Wheels (WheelState α)) : α :=
  states.toList.foldl (fun top s => Scalar.larger top (Scalar.magnitude s.speed)) 0

/-- Scales all speeds by one factor so that none exceeds `limit`, which keeps
the direction in which the chassis moves. -/
def limitSpeed (states : Wheels (WheelState α)) (limit : α) : Wheels (WheelState α) :=
  let top := states.topSpeed
  if limit < top ∧ 0 < top then
    let factor := limit / top
    states.map fun s => ⟨s.speed * factor, s.angle⟩
  else states

end Wheels

end SwerveLocalization
