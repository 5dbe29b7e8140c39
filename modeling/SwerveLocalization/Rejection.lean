/-!
# Why a sample is rejected

A bad sample never stops the robot. It leaves the estimate alone, is counted
under one of the ten reasons below, and is reported on the console.
-/

namespace SwerveLocalization

/-- The reasons for rejecting a wheel reading or a camera pose. -/
inductive Rejection
  | nonFinitePose
  | invalidDeviations
  | stale
  | noHistory
  | outOfOrderOdometry
  | nonFiniteOdometry
  | noTags
  | ambiguous
  | heightError
  | outsideField
deriving DecidableEq

namespace Rejection

/-- Every reason, in the order of the tally. -/
def all : List Rejection :=
  [nonFinitePose, invalidDeviations, stale, noHistory, outOfOrderOdometry, nonFiniteOdometry,
    noTags, ambiguous, heightError, outsideField]

/-- The place of a reason in the tally. -/
def index : Rejection → Fin 10
  | nonFinitePose => 0
  | invalidDeviations => 1
  | stale => 2
  | noHistory => 3
  | outOfOrderOdometry => 4
  | nonFiniteOdometry => 5
  | noTags => 6
  | ambiguous => 7
  | heightError => 8
  | outsideField => 9

/-- Whether the rejected sample came from a camera and not from the wheels. -/
def isVision : Rejection → Bool
  | outOfOrderOdometry => false
  | nonFiniteOdometry => false
  | _ => true

/-- The reason in words. -/
def message : Rejection → String
  | nonFinitePose => "pose or timestamp is not finite"
  | invalidDeviations => "standard deviations must be positive"
  | stale => "sample is older than the retained history"
  | noHistory => "no odometry history to compare against"
  | outOfOrderOdometry => "odometry sample is not newer than the last applied sample"
  | nonFiniteOdometry => "odometry reading is not finite"
  | noTags => "observation saw no tags"
  | ambiguous => "single-tag observation is too ambiguous"
  | heightError => "observed height is too far from the floor"
  | outsideField => "observed pose is outside the field"

/-- The tally lists every reason at its place. -/
theorem all_getElem?_index (r : Rejection) : all[r.index.val]? = some r := by
  cases r <;> rfl

/-- No two reasons share a place in the tally. -/
theorem index_inj {r q : Rejection} : r.index = q.index ↔ r = q := by
  constructor
  · intro h
    have hr := all_getElem?_index r
    rw [h, all_getElem?_index q] at hr
    exact (Option.some.inj hr).symm
  · intro h
    rw [h]

end Rejection

/-- What became of a sample. -/
inductive Verdict
  | accepted
  | rejected (reason : Rejection)
deriving DecidableEq

namespace Verdict

/-- Whether the sample was taken in. -/
def isAccepted : Verdict → Bool
  | accepted => true
  | rejected _ => false

/-- The reason for a rejection. -/
def reason? : Verdict → Option Rejection
  | accepted => none
  | rejected r => some r

end Verdict

end SwerveLocalization
