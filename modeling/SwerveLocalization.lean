import SwerveLocalization.Console.Notices
import SwerveLocalization.Decimal.Scientific
import SwerveLocalization.Binary64.Arithmetic
import SwerveLocalization.Proofs.Exact.Residual
import SwerveLocalization.Proofs.Localization.Coherence
import SwerveLocalization.Proofs.Localization.Journal
import SwerveLocalization.Proofs.Robot.Thinning
import SwerveLocalization.Proofs.Exact.Motion
import SwerveLocalization.Proofs.Localization.HeadingChannel
import SwerveLocalization.Proofs.Exact.Convergence
import SwerveLocalization.Proofs.Binary64.Operations
import SwerveLocalization.Proofs.Binary64.Order
import SwerveLocalization.Proofs.Binary64.Word
import SwerveLocalization.Proofs.Shot.Calibration
import SwerveLocalization.Proofs.Shot.Envelope
import SwerveLocalization.Proofs.Shot.Replacement
import SwerveLocalization.Proofs.Binary64.Interpolation
import SwerveLocalization.Proofs.Binary64.Wrapping
import SwerveLocalization.Proofs.Localization.Finiteness
import SwerveLocalization.Proofs.Localization.Reset
import SwerveLocalization.Proofs.Robot.Accounting
import SwerveLocalization.Proofs.Robot.Splitting
import SwerveLocalization.Proofs.Vision.Admission
import SwerveLocalization.Proofs.Sensing.LastGood
import SwerveLocalization.Proofs.Exact.SteadyMotion
import SwerveLocalization.Proofs.Exact.CourseRecord
import SwerveLocalization.Proofs.Exact.FieldSymmetry
import SwerveLocalization.Proofs.Exact.WheelRoundTrip
import SwerveLocalization.Proofs.Exact.RigidMotion
import SwerveLocalization.Proofs.Exact.HeadingAccount
import SwerveLocalization.Proofs.BinarySearch
import SwerveLocalization.Proofs.Shot.LastWrites
import SwerveLocalization.Proofs.Exact.PiecewiseLinear
import SwerveLocalization.Proofs.Localization.Timeline
import SwerveLocalization.Proofs.Localization.BatchSelection
import SwerveLocalization.Proofs.Localization.Acceptance
import SwerveLocalization.Proofs.Localization.Lookup
import SwerveLocalization.Proofs.Localization.Staleness
import SwerveLocalization.Proofs.Exact.Interpolation
import SwerveLocalization.Proofs.Exact.Axes
import SwerveLocalization.Proofs.Exact.RigidCorrection
import SwerveLocalization.Proofs.Exact.PullStrength
import SwerveLocalization.Proofs.Exact.ConstantCurvature
import SwerveLocalization.Proofs.Exact.BestFit
import SwerveLocalization.Proofs.Binary64.Magnitude
import SwerveLocalization.Proofs.Binary64.Library
import SwerveLocalization.Proofs.Chassis.FiniteShares
import SwerveLocalization.Proofs.Localization.Standstill
import SwerveLocalization.Proofs.Localization.Intake
import SwerveLocalization.Proofs.Localization.RejectionTotal
import SwerveLocalization.Proofs.Exact.Confidence
import SwerveLocalization.Proofs.Exact.SpeedLimit
import SwerveLocalization.Proofs.Binary64.Monotone
import SwerveLocalization.Proofs.Vision.Trust
import SwerveLocalization.Proofs.FlooredModulus
import SwerveLocalization.Proofs.Plane.WrappedHeading
import SwerveLocalization.Proofs.Exact.ShortWay
import SwerveLocalization.Proofs.Localization.ConfidenceRange
