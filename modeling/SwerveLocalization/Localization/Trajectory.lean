import SwerveLocalization.Line
import SwerveLocalization.Plane.Pose

/-!
# Trajectories

A bounded record of the latest poses, oldest first. A pose is added only with
a time later than the newest one. The oldest entries fall out when there are
more than `capacity` of them or when they are more than `window` seconds older
than the newest. Between two entries the pose is interpolated.
-/

namespace SwerveLocalization

/-- A pose with its time, in seconds. -/
structure Waypoint (α : Type) where
  time : α
  pose : Pose α
deriving DecidableEq

/-- The latest poses of a robot, oldest first. -/
structure Trajectory (α : Type) where
  capacity : Nat
  window : α
  entries : List (Waypoint α)
deriving DecidableEq

namespace Trajectory

variable {α : Type} [Scalar α]

/-- A trajectory without entries. -/
def empty (capacity : Nat) (window : α) : Trajectory α := ⟨capacity, window, []⟩

/-- Whether there is no entry. -/
def isEmpty (h : Trajectory α) : Bool := h.entries.isEmpty

/-- How many entries there are. -/
def length (h : Trajectory α) : Nat := h.entries.length

/-- The oldest entry. -/
def oldest? (h : Trajectory α) : Option (Waypoint α) := h.entries.head?

/-- The newest entry. -/
def newest? (h : Trajectory α) : Option (Waypoint α) := h.entries.getLast?

/-- Forgets every entry. -/
def clear (h : Trajectory α) : Trajectory α := { h with entries := [] }

/-- Whether an entry at `time` would be newer than all others. -/
def admits (h : Trajectory α) (time : α) : Bool :=
  match h.newest? with
  | none => true
  | some last => !decide (time ≤ last.time)

/-- The latest `capacity` entries of a list. -/
def keepLatest (capacity : Nat) (entries : List (Waypoint α)) : List (Waypoint α) :=
  entries.drop (entries.length - capacity)

/-- The entries of a list from the first one that is at most `window` older
than `now`. -/
def keepRecent (window now : α) (entries : List (Waypoint α)) : List (Waypoint α) :=
  entries.dropWhile fun e => decide (window < now - e.time)

/-- Adds an entry and lets the oldest ones fall out; `none` if the entry is
not newer than all others. -/
def push? (h : Trajectory α) (e : Waypoint α) : Option (Trajectory α) :=
  if h.admits e.time then
    some { h with
      entries := keepRecent h.window e.time (keepLatest h.capacity (h.entries ++ [e])) }
  else none

/-- The pose at `time` on the part of a trajectory that starts in `e`, where
`time` is after `e`. After the last entry the robot stays there. -/
def walk (time : α) (e : Waypoint α) : List (Waypoint α) → Pose α
  | [] => e.pose
  | next :: rest =>
    if next.time < time then walk time next rest
    else if next.time == time then next.pose
    else e.pose.blend next.pose (inverseLerp e.time next.time time)

/-- The pose at `time`, unless this is before the oldest entry. -/
def poseAt? (h : Trajectory α) (time : α) : Option (Pose α) :=
  match h.entries with
  | [] => none
  | first :: rest =>
    if time < first.time then none
    else if time == first.time then some first.pose
    else some (walk time first rest)

/-- Displaces every entry, so that the trajectory describes where the robot
has been according to a corrected estimate. -/
def shift (h : Trajectory α) (d : Shift α) : Trajectory α :=
  { h with entries := h.entries.map fun e => ⟨e.time, e.pose.shift d⟩ }

/-- Displacing a trajectory leaves its times alone. -/
theorem times_shift (h : Trajectory α) (d : Shift α) :
    (h.shift d).entries.map Waypoint.time = h.entries.map Waypoint.time := by
  simp [shift, Function.comp_def]

end Trajectory

end SwerveLocalization
