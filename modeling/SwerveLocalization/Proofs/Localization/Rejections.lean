import Mathlib
import SwerveLocalization.Proofs.Localization.Steps
import SwerveLocalization.Robot.State

/-!
# Nothing reads the counts of rejections

A rejected sample leaves its mark on one counter, and no decision looks at the
counters of rejections. Hence a sample that was rejected can be left out: an
estimator that never saw it stays a shadow of the one that did, equal but for
these counters, and gives every other sample the same verdict.
-/

namespace SwerveLocalization.Estimator

variable {α : Type} {β : Type}

/-- An estimator with its counts of rejections erased. -/
def unmarked (e : Estimator α) : Estimator α :=
  { e with tally := { e.tally with rejections := Vector.replicate 10 0 } }

/-- Estimators that differ in nothing else differ in their counts of rejections. -/
theorem eq_of_unmarked_eq {e e' : Estimator α} (h : e.unmarked = e'.unmarked) :
    e = { e' with tally := { e'.tally with rejections := e.tally.rejections } } :=
  congrArg (fun x : Estimator α =>
    { x with tally := { x.tally with rejections := e.tally.rejections } }) h

/-- An estimator, and one that has missed `missed r` of the rejections for each
reason `r` but is the same otherwise. -/
structure Shadow (missed : Rejection → Nat) (e e' : Estimator α) : Prop where
  alike : e.unmarked = e'.unmarked
  counts : ∀ r, e.tally.rejectedFor r = countOn^[missed r] (e'.tally.rejectedFor r)

theorem shadow_self (e : Estimator α) : Shadow (fun _ => 0) e e := ⟨rfl, fun _ => rfl⟩

variable {missed : Rejection → Nat} {e e' : Estimator α}

/-- Both count the same rejection. -/
theorem Shadow.recordRejection (h : Shadow missed e e') (r : Rejection) :
    Shadow missed (e.recordRejection r) (e'.recordRejection r) := by
  refine ⟨h.alike, ?_⟩
  intro q
  unfold Estimator.recordRejection
  rw [Tally.rejectedFor_countRejection, Tally.rejectedFor_countRejection]
  by_cases hq : q = r
  · rw [if_pos hq, if_pos hq, hq, h.counts r, ← Function.iterate_succ_apply' countOn,
      ← Function.iterate_succ_apply countOn]
  · rw [if_neg hq, if_neg hq, h.counts q]

/-- One of the two misses a rejection. -/
theorem Shadow.missRejection (h : Shadow missed e e') (r : Rejection) :
    Shadow (fun q => missed q + if r = q then 1 else 0) (e.recordRejection r) e' := by
  refine ⟨h.alike, ?_⟩
  intro q
  unfold Estimator.recordRejection
  rw [Tally.rejectedFor_countRejection]
  by_cases hq : q = r
  · rw [if_pos hq, if_pos hq.symm, hq, h.counts r, ← Function.iterate_succ_apply' countOn]
  · rw [if_neg hq, if_neg (Ne.symm hq), h.counts q]
    rfl

theorem Shadow.of_alike (h : Shadow missed e e') {after after' : Estimator α}
    (halike : after.unmarked = after'.unmarked)
    (hafter : after.tally.rejections = e.tally.rejections)
    (hafter' : after'.tally.rejections = e'.tally.rejections) : Shadow missed after after' := by
  refine ⟨halike, ?_⟩
  intro r
  have hcounts := h.counts r
  unfold Tally.rejectedFor at hcounts ⊢
  rw [hafter, hafter']
  exact hcounts

theorem Shadow.resetPose (h : Shadow missed e e') (pose : Pose α) :
    Shadow missed (e.resetPose pose) (e'.resetPose pose) :=
  h.of_alike (congrArg (fun x => Estimator.resetPose x pose) h.alike) rfl rfl

/-! ## Ways to take in samples -/

/-- A way to take in samples that does not look at the counts of rejections,
and that changes nothing else when it rejects. -/
structure Blind (take : Estimator α → β → Verdict × Estimator α) : Prop where
  verdict : ∀ e b, (take e.unmarked b).1 = (take e b).1
  alike : ∀ e b, (take e.unmarked b).2.unmarked = (take e b).2.unmarked
  accepted : ∀ e b, (take e b).1 = .accepted → (take e b).2.tally.rejections = e.tally.rejections
  rejected : ∀ e b r, (take e b).1 = .rejected r → (take e b).2 = e.recordRejection r

/-- Takes in a sample if a decision lets it, and counts the reason if not. -/
def judge (decision : Estimator α → β → Except Rejection (Estimator α)) (e : Estimator α) (b : β) :
    Verdict × Estimator α :=
  match decision e b with
  | .ok after => (.accepted, after)
  | .error r => (.rejected r, e.recordRejection r)

theorem blind_judge {decision : Estimator α → β → Except Rejection (Estimator α)}
    (hunmarked : ∀ e b, decision e.unmarked b = (decision e b).map unmarked)
    (hkept : ∀ e b after, decision e b = .ok after → after.tally.rejections = e.tally.rejections) :
    Blind (judge decision) := by
  constructor
  · intro e b
    unfold judge
    rw [hunmarked]
    cases decision e b <;> rfl
  · intro e b
    unfold judge
    rw [hunmarked]
    cases decision e b <;> rfl
  · intro e b haccepted
    unfold judge at haccepted ⊢
    cases hdecision : decision e b with
    | ok after => exact hkept e b after hdecision
    | error r =>
      rw [hdecision] at haccepted
      contradiction
  · intro e b r hrejected
    unfold judge at hrejected ⊢
    cases hdecision : decision e b with
    | ok after =>
      rw [hdecision] at hrejected
      contradiction
    | error q =>
      rw [hdecision] at hrejected
      cases hrejected
      rfl

variable {take : Estimator α → β → Verdict × Estimator α}

theorem Blind.verdict_eq (hblind : Blind take) (h : Shadow missed e e') (b : β) :
    (take e b).1 = (take e' b).1 := by
  rw [← hblind.verdict e, h.alike, hblind.verdict]

/-- A sample that both take in. -/
theorem Blind.shadow (hblind : Blind take) (h : Shadow missed e e') (b : β) :
    Shadow missed (take e b).2 (take e' b).2 := by
  have hverdict := hblind.verdict_eq h b
  cases hfull : (take e b).1 with
  | accepted =>
    apply h.of_alike _ (hblind.accepted e b hfull) (hblind.accepted e' b (hverdict ▸ hfull))
    rw [← hblind.alike e, h.alike, hblind.alike]
  | rejected r =>
    rw [hblind.rejected e b r hfull, hblind.rejected e' b r (hverdict ▸ hfull)]
    exact h.recordRejection r

variable [Scalar α]

theorem integrate_unmarked (e : Estimator α) (s : DriveSample α) :
    e.unmarked.integrate s = (e.integrate s).map unmarked := by
  have hnewer : e.unmarked.isNewer s.time = e.isNewer s.time := rfl
  have hreckoner : e.unmarked.reckoner = e.reckoner := rfl
  unfold integrate
  rw [hnewer, hreckoner]
  split
  · rfl
  · split
    · rfl
    · cases e.reckoner.update s.reading <;> rfl

theorem blind_addDrive : Blind (α := α) addDrive := by
  apply blind_judge integrate_unmarked
  intro e s after hafter
  obtain ⟨-, -, reckoner, -, rfl⟩ := integrate_eq_ok hafter
  rfl

/-- The estimator after a camera pose, or why the pose is rejected. -/
def fuse (e : Estimator α) (m : PoseMeasurement α) : Except Rejection (Estimator α) :=
  (e.assess m).map fun d => (e.displace d).confirm m.time

theorem fuse_unmarked (e : Estimator α) (m : PoseMeasurement α) :
    e.unmarked.fuse m = (e.fuse m).map unmarked := by
  have hassess : e.unmarked.assess m = e.assess m := rfl
  unfold fuse
  rw [hassess]
  cases e.assess m <;> rfl

theorem rejections_fuse {e after : Estimator α} {m : PoseMeasurement α}
    (h : e.fuse m = .ok after) : after.tally.rejections = e.tally.rejections := by
  unfold fuse at h
  cases hassess : e.assess m with
  | ok d =>
    rw [hassess] at h
    rw [← Except.ok.inj h]
    rfl
  | error r =>
    rw [hassess] at h
    contradiction

/-- The gate decides on the sighting alone. -/
theorem blind_addSighting (g : GateSettings α) (f : Field α) : Blind (Robot.addSighting g f) := by
  have hjudge : Robot.addSighting g f = judge fun e s => (g.evaluate f s).bind e.fuse := by
    funext e s
    unfold Robot.addSighting judge addPose fuse
    dsimp only
    cases g.evaluate f s with
    | error r => rfl
    | ok m =>
      dsimp only [Except.bind]
      cases e.assess m <;> rfl
  rw [hjudge]
  apply blind_judge
  · intro e s
    cases g.evaluate f s with
    | error r => rfl
    | ok m => exact fuse_unmarked e m
  · intro e s after hafter
    cases hevaluate : g.evaluate f s with
    | error r =>
      rw [hevaluate] at hafter
      contradiction
    | ok m =>
      rw [hevaluate] at hafter
      exact rejections_fuse hafter

end SwerveLocalization.Estimator
