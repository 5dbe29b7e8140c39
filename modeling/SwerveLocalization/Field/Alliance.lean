/-!
# Alliances

The two alliances of a match. Before a robot has been told its own, the
alliance is unknown.
-/

namespace SwerveLocalization

/-- The alliance a robot plays for. -/
inductive Alliance
  | unknown
  | red
  | blue
deriving DecidableEq

/-- The alliance on the other side. An unknown alliance plays against red. -/
def Alliance.opponent : Alliance → Alliance
  | red => blue
  | blue => red
  | unknown => red

end SwerveLocalization
