import SwerveLocalization.Chassis.Matrix3
import SwerveLocalization.Chassis.Velocity
import SwerveLocalization.Chassis.Wheels
import SwerveLocalization.ConfigurationFault
import SwerveLocalization.Plane.Pose

/-!
# Kinematics of a swerve chassis

A wheel at the offset `(x, y)` from the centre of a chassis that moves with
`(vx, vy, ω)` has the velocity `(vx - ω y, vy + ω x)`. The four wheels give
eight such equations in three unknowns. `wheelStates` evaluates them;
`velocity` and `motion` solve them in the sense of least squares, through the
inverse of the normal equations, which is computed once when the chassis is
built.
-/

namespace SwerveLocalization

/-- The pairs of distinct places of a list, in order. -/
def distinctPairs {β : Type} : List β → List (β × β)
  | [] => []
  | b :: rest => rest.map (fun c => (b, c)) ++ distinctPairs rest

variable {α : Type} [Scalar α]

/-- The equation of a wheel's velocity along the chassis. -/
def alongRow (offset : Vec2 α) : Vec3 α := ⟨1, 0, -offset.y⟩

/-- The equation of a wheel's velocity across the chassis. -/
def acrossRow (offset : Vec2 α) : Vec3 α := ⟨0, 1, offset.x⟩

/-- What one wheel contributes to the solution: the chassis motion for each
unit of its velocity along and across the chassis. -/
structure WheelShare (α : Type) where
  along : Vec3 α
  across : Vec3 α
deriving DecidableEq

/-- A chassis that has been checked: where its wheels are, and how their
velocities combine into the velocity of the chassis. -/
structure Chassis (α : Type) where
  offsets : Wheels (Vec2 α)
  shares : Wheels (WheelShare α)
deriving DecidableEq

namespace Chassis

/-- The matrix of the normal equations of four wheels. -/
def normalMatrix (offsets : Wheels (Vec2 α)) : Matrix3 α :=
  let along := offsets.map fun o => Matrix3.square (alongRow o)
  let across := offsets.map fun o => Matrix3.square (acrossRow o)
  along.frontLeft + across.frontLeft + along.frontRight + across.frontRight
    + along.backLeft + across.backLeft + along.backRight + across.backRight

/-- The first offset with a component that is not finite. -/
def nonFiniteOffset? (offsets : Wheels (Vec2 α)) : Option Nat :=
  offsets.toList.findIdx? fun o => !o.isFinite

/-- The first two wheels that stand at one place. -/
def coincidingOffsets? (offsets : Wheels (Vec2 α)) : Option (Nat × Nat) :=
  ((distinctPairs offsets.toList.zipIdx).find? fun p => decide ((p.1.1 - p.2.1).norm < 1e-9)).map
    fun p => (p.1.2, p.2.2)

/-- Builds a chassis from the offsets of its wheels. Offsets must be finite,
distinct, and such that the normal equations can be solved. -/
def build (offsets : Wheels (Vec2 α)) : Except (ConfigurationFault α) (Chassis α) :=
  match nonFiniteOffset? offsets with
  | some i => .error (.nonFiniteOffset i)
  | none =>
    match coincidingOffsets? offsets with
    | some (i, j) => .error (.coincidingOffsets i j)
    | none =>
      match (normalMatrix offsets).inverse? with
      | none => .error .singularOffsets
      | some inverse =>
        .ok ⟨offsets, offsets.map fun o =>
          ⟨inverse.mulVec (alongRow o), inverse.mulVec (acrossRow o)⟩⟩

/-- A chassis that could be built has passed every check, and its shares come
from the inverse of its normal equations. -/
theorem build_eq_ok {offsets : Wheels (Vec2 α)} {c : Chassis α} (h : build offsets = .ok c) :
    nonFiniteOffset? offsets = none ∧ coincidingOffsets? offsets = none ∧
      ∃ inverse, (normalMatrix offsets).inverse? = some inverse ∧
        c = ⟨offsets, offsets.map fun o =>
          ⟨inverse.mulVec (alongRow o), inverse.mulVec (acrossRow o)⟩⟩ := by
  unfold build at h
  split at h
  · contradiction
  · rename_i hfinite
    split at h
    · contradiction
    · rename_i hdistinct
      split at h
      · contradiction
      · rename_i inverse hinverse
        exact ⟨hfinite, hdistinct, inverse, hinverse, (Except.ok.inj h).symm⟩

/-- The offsets of the wheels of a rectangular chassis. -/
def rectangle (halfLength halfWidth : α) : Wheels (Vec2 α) :=
  ⟨⟨halfLength, halfWidth⟩, ⟨halfLength, -halfWidth⟩, ⟨-halfLength, halfWidth⟩,
    ⟨-halfLength, -halfWidth⟩⟩

/-- The velocity of a wheel at `offset` on a chassis that moves with `v`. -/
def wheelVelocity (offset : Vec2 α) (v : Vec3 α) : Vec2 α :=
  ⟨(alongRow offset).dot v, (acrossRow offset).dot v⟩

/-- The wheel states that realise a chassis velocity. A velocity in the field
frame is turned into the robot frame first, with the given heading. -/
def wheelStates (c : Chassis α) (v : ChassisVelocity α) (heading : α) : Wheels (WheelState α) :=
  let r := v.toRobot heading
  c.offsets.map fun o => .ofVelocity (wheelVelocity o ⟨r.vx, r.vy, r.omega⟩)

/-- The chassis motion that explains the motion of the wheels best. -/
def solve (c : Chassis α) (w : Wheels (Vec2 α)) : Vec3 α :=
  let parts := c.shares.zipWith (fun s v => (s.along.scale v.x, s.across.scale v.y)) w
  parts.frontLeft.1 + parts.frontLeft.2 + parts.frontRight.1 + parts.frontRight.2
    + parts.backLeft.1 + parts.backLeft.2 + parts.backRight.1 + parts.backRight.2

/-- The chassis velocity, in the robot frame, that explains the states of the
wheels best. -/
def velocity (c : Chassis α) (states : Wheels (WheelState α)) : ChassisVelocity α :=
  let v := c.solve (states.map WheelState.velocity)
  ⟨v.x, v.y, v.z, .robot⟩

/-- The motion of the chassis that explains best how far the wheels rolled. -/
def motion (c : Chassis α) (travels : Wheels (WheelTravel α)) : Twist α :=
  let v := c.solve (travels.map WheelTravel.path)
  ⟨v.x, v.y, v.z⟩

end Chassis

end SwerveLocalization
