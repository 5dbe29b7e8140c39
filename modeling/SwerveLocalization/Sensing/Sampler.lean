import SwerveLocalization.Robot.State

/-!
# Sampling the devices

Each device of the drivetrain is read once per cycle. A device that fails, or
gives a number that is not finite, contributes its last good reading, so a
lost packet shows up as a missed step and not as a jump. As long as the gyro
or the travel of some wheel has never been read, there is no sample at all.
-/

namespace SwerveLocalization

/-- Why a device gave no reading. -/
inductive DeviceFault
  | disconnected
  | invalidReading
deriving DecidableEq

/-- The fault in words. -/
def DeviceFault.message : DeviceFault → String
  | disconnected => "device is disconnected"
  | invalidReading => "device returned an invalid reading"

/-- What a device answers. -/
abbrev Reading (β : Type) := Except DeviceFault β

/-- A reading that counts: a value that fails the check is a fault. -/
def Reading.checked {β : Type} (isGood : β → Bool) : Reading β → Reading β
  | .ok b => if isGood b then .ok b else .error .invalidReading
  | .error fault => .error fault

/-- The value of a reading, or the one held before if there is none. -/
def Reading.orHeld {β : Type} (held : β) : Reading β → β
  | .ok b => b
  | .error _ => held

/-- What all devices of a drivetrain answer in one cycle. -/
structure DeviceReadings (α : Type) where
  gyro : Reading α
  travel : Wheels (Reading (WheelTravel α))
  states : Wheels (Reading (WheelState α))

/-- The last good readings of a drivetrain. -/
structure Sampler (α : Type) where
  gyro : Option α
  travel : Wheels (Option (WheelTravel α))
  states : Wheels (WheelState α)
deriving DecidableEq

variable {α : Type} [Scalar α]

/-- The readings with everything that is not finite turned into a fault. -/
def DeviceReadings.checked (r : DeviceReadings α) : DeviceReadings α where
  gyro := r.gyro.checked Scalar.isFinite
  travel := r.travel.map (Reading.checked WheelTravel.isFinite)
  states := r.states.map (Reading.checked WheelState.isFinite)

namespace Sampler

/-- Nothing has been read yet, and every wheel is taken to be at rest. -/
def start : Sampler α := ⟨none, .replicate none, .replicate .rest⟩

/-- Replaces what is held by what has been read. -/
def hold (s : Sampler α) (r : DeviceReadings α) : Sampler α :=
  let good := r.checked
  { gyro := Reading.orHeld s.gyro (good.gyro.map some)
    travel := s.travel.zipWith (fun held t => Reading.orHeld held (t.map some)) good.travel
    states := s.states.zipWith Reading.orHeld good.states }

/-- The inputs of a cycle at `time` from what is held, once every device that
is needed has been read. -/
def inputs? (s : Sampler α) (time : α) : Option (DriveInputs α) :=
  match s.gyro, s.travel.allSome? with
  | some gyro, some travel => some ⟨[⟨time, ⟨gyro, travel⟩⟩], s.states⟩
  | _, _ => none

/-- One cycle: reads the devices and gives the inputs for the robot. -/
def sample (s : Sampler α) (time : α) (r : DeviceReadings α) :
    Option (DriveInputs α) × Sampler α :=
  let held := s.hold r
  (held.inputs? time, held)

end Sampler

end SwerveLocalization
