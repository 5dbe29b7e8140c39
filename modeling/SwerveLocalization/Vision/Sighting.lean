import SwerveLocalization.Scalar

/-!
# Sightings

A sighting is a pose of the robot as one camera reports it, before anything
has been checked. Sightings wait in a queue until the next control cycle.
-/

namespace SwerveLocalization

/-- How a camera found the pose. -/
inductive PoseSource
  /-- Position and heading come from the tags alone. -/
  | tags
  /-- The heading was taken from the gyro, so it says nothing new. -/
  | tagsAndGyro
deriving DecidableEq

/-- A pose reported by a camera. -/
structure Sighting (α : Type) where
  /-- The time of the capture, in seconds. -/
  time : α
  x : α
  y : α
  /-- The height of the robot, which should be near zero. -/
  z : α
  heading : α
  /-- How ambiguous a pose from one tag is, from 0 to 1. -/
  ambiguity : α
  /-- How many tags were seen. -/
  tags : UInt32
  /-- The mean distance of the tags, in metres. -/
  tagDistance : α
  source : PoseSource
  /-- The number of the camera. -/
  camera : Nat
deriving DecidableEq

/-- Sightings that wait for the next control cycle, in order of arrival. -/
structure SightingQueue (α : Type) where
  waiting : List (Sighting α)
deriving DecidableEq

namespace Sighting

variable {α : Type} [Scalar α]

/-- A sighting of nothing. -/
def blank : Sighting α := ⟨0, 0, 0, 0, 0, 0, 0, 0, .tags, 0⟩

/-- Whether everything measured is finite. -/
def isFinite (s : Sighting α) : Bool :=
  [s.time, s.x, s.y, s.z, s.heading, s.ambiguity, s.tagDistance].all Scalar.isFinite

/-- Sightings in the order of their captures, those of one time as they
came. -/
def inOrder (sightings : List (Sighting α)) : List (Sighting α) :=
  sightings.mergeSort fun a b => Scalar.totalLe a.time b.time

end Sighting

namespace SightingQueue

variable {α : Type}

/-- A queue in which nothing waits. -/
def empty : SightingQueue α := ⟨[]⟩

/-- Lets a sighting wait behind the others. -/
def push (q : SightingQueue α) (s : Sighting α) : SightingQueue α := ⟨q.waiting ++ [s]⟩

/-- Moves everything that waits behind what has been drained before. -/
def drain (q : SightingQueue α) (drained : List (Sighting α)) :
    List (Sighting α) × SightingQueue α :=
  (drained ++ q.waiting, empty)

@[simp] theorem waiting_push (q : SightingQueue α) (s : Sighting α) :
    (q.push s).waiting = q.waiting ++ [s] := rfl

end SightingQueue

end SwerveLocalization
