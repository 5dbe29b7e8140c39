import Mathlib
import SwerveLocalization.Proofs.Binary64.Monotone
import SwerveLocalization.Proofs.Localization.Finiteness
import SwerveLocalization.Proofs.Vision.Admission

/-!
# Better sightings are trusted more

The deviations of a sighting come out of a chain of rounded products, which may
overflow, vanish, or be NaN where a factor is zero. Main statement: with baselines and
factors that are finite and not negative, of two sightings of one kind by one camera
the one with nearer and more tags has deviations that are not larger, so it is trusted
at least as much on each axis. No overflow and no NaN turns this around.
-/

namespace SwerveLocalization

open Binary64

theorem isInfinite_eq_false_iff {x : Float} (hnan : x.isNaN = false) :
    Scalar.isInfinite x = false ↔ x.isFinite = true := by
  have hform : Scalar.isInfinite x = (!x.isFinite && !x.isNaN) := rfl
  rw [hform, hnan]
  simp

/-- A measurement with a larger deviation is trusted less. -/
theorem trust_anti {d d' : Float} (hpos : 0 < d) (hle : d ≤ d') : trust d' ≤ trust d := by
  obtain ⟨hnan, hnan', -⟩ := (le_iff d d').mp hle
  cases hinfinite : Scalar.isInfinite d' with
  | true =>
    obtain ⟨hfinite, hnonneg, -⟩ := isFraction_trust hpos
    rw [trust, if_pos hinfinite]
    exact (zero_le_iff_real hfinite).mpr hnonneg
  | false =>
    have hascending : Ascending d d' := ⟨RealScalar.le_of_lt hpos, hle⟩
    have hfinite' := (isInfinite_eq_false_iff hnan').mp hinfinite
    have hfinite := hascending.isFinite hfinite'
    have hreal : 0 < real d := by
      have h := (real_lt_real rfl hfinite).mp hpos
      rwa [real_zero] at h
    have hreal' : real d ≤ real d' := (real_le_real hfinite hfinite').mp hle
    -- the sums are finite and in order, so their inverses are in the opposite order
    obtain ⟨hsum, hone⟩ := one_le_one_add hfinite hreal
    obtain ⟨hsum', -⟩ := one_le_one_add hfinite' (hreal.trans_le hreal')
    have hsums : 1 + d ≤ 1 + d' :=
      le_of_denotes (denotes_add (x := 1) rfl hfinite) (denotes_add (x := 1) rfl hfinite')
        (nearest_mono (by gcongr))
    have hunit : Ascending 1 1 := ⟨by decide +kernel, by decide +kernel⟩
    have hquotient : Ascending (1 / (1 + d')) (1 / (1 + d)) :=
      hunit.div hsum' hsum (zero_lt_one.trans_le hone) ((real_le_real hsum hsum').mp hsums)
    rw [trust, trust, hinfinite, (isInfinite_eq_false_iff hnan).mpr hfinite]
    exact hquotient.2

namespace GateSettings

variable {g : GateSettings Float} {f f' : Field Float} {s s' : Sighting Float}
  {m m' : PoseMeasurement Float}

/-- Settings whose baselines and factors are finite and not negative. -/
structure Sensible (g : GateSettings Float) : Prop where
  linear : IsFactor g.linearBaseline
  angular : IsFactor g.angularBaseline
  gyroLinear : IsFactor g.gyroLinearFactor
  cameras : ∀ c ∈ g.cameraFactors, IsFactor c

/-- A sighting that shows no less than another one of its kind. -/
structure NoWorse (s s' : Sighting Float) : Prop where
  source_eq : s.source = s'.source
  camera_eq : s.camera = s'.camera
  distance_le : Scalar.magnitude s.tagDistance ≤ Scalar.magnitude s'.tagDistance
  tags_le : s'.tags ≤ s.tags

theorem isFactor_one : IsFactor 1 := ⟨rfl, by decide +kernel⟩

/-- A camera without a factor has the factor one. -/
theorem Sensible.camera (hg : g.Sensible) (camera : Nat) :
    IsFactor (g.cameraFactors.getD camera 1) := by
  rw [List.getD_eq_getElem?_getD]
  cases hcamera : g.cameraFactors[camera]? with
  | none => exact isFactor_one
  | some c => exact hg.cameras c (List.mem_of_getElem? hcamera)

/-- Nearer and more tags spread less. -/
theorem NoWorse.spread (h : NoWorse s s') (hg : g.Sensible) (hs : s.tagDistance.isFinite = true)
    (hs' : s'.tagDistance.isFinite = true) (htags : s'.tags ≠ 0) :
    InOrder (g.spread s) (g.spread s') := by
  obtain ⟨hfinite, hreal⟩ := real_magnitude hs
  obtain ⟨hfinite', hreal'⟩ := real_magnitude hs'
  have hdistance : |real s.tagDistance| ≤ |real s'.tagDistance| := by
    rw [← hreal, ← hreal', ← real_le_real hfinite hfinite']
    exact h.distance_le
  have hword : ∀ n : UInt32, n.toNat < 2 ^ 53 := fun n => n.toNat_lt.trans (by norm_num)
  obtain ⟨hcount, hn⟩ := real_ofNat (hword s.tags)
  obtain ⟨hcount', hn'⟩ := real_ofNat (hword s'.tags)
  have hpos : 0 < s'.tags.toNat := Nat.pos_of_ne_zero fun hzero => htags (UInt32.toNat_inj.mp hzero)
  have hmore : s'.tags.toNat ≤ s.tags.toNat := UInt32.le_iff_toNat_le.mp h.tags_le
  have hquotient : Ascending (s.tagDistance * s.tagDistance / Float.ofNat s.tags.toNat)
      (s'.tagDistance * s'.tagDistance / Float.ofNat s'.tags.toNat) := by
    refine (ascending_square hs hs' hdistance).div hcount hcount' ?_ ?_
    · rw [hn']
      exact_mod_cast hpos
    · rw [hn, hn']
      exact_mod_cast hmore
  have hproduct := InOrder.mul (.inl hquotient) (hg.camera s.camera)
  unfold GateSettings.spread
  rw [← h.camera_eq]
  exact hproduct

theorem isFinite_leastDeviation : (leastDeviation : Float).isFinite = true := by decide +kernel

theorem larger_le_larger {x y : Float} (h : InOrder x y) :
    Scalar.larger x leastDeviation ≤ Scalar.larger y leastDeviation :=
  h.larger isFinite_leastDeviation leastDeviation_pos

/-- The deviations of a sighting that is no worse are not larger. -/
theorem NoWorse.deviations (h : NoWorse s s') (hg : g.Sensible)
    (hspread : InOrder (g.spread s) (g.spread s')) :
    (g.deviations s).x ≤ (g.deviations s').x ∧ (g.deviations s).y ≤ (g.deviations s').y ∧
      (g.deviations s).z ≤ (g.deviations s').z := by
  have hlinear := hspread.mul_left hg.linear
  unfold GateSettings.deviations
  rw [← h.source_eq]
  cases s.source with
  | tags =>
    have hangular := hspread.mul_left hg.angular
    exact ⟨larger_le_larger hlinear, larger_le_larger hlinear, larger_le_larger hangular⟩
  | tagsAndGyro =>
    have hgyro := hlinear.mul hg.gyroLinear
    have hinfinity : Ascending Scalar.infinity Scalar.infinity :=
      ⟨by decide +kernel, by decide +kernel⟩
    exact ⟨larger_le_larger hgyro, larger_le_larger hgyro, larger_le_larger (.inl hinfinity)⟩

/-- With baselines and factors that are finite and not negative, of two sightings that pass the
gate the one that is no worse has deviations that are not larger, also where these are infinite,
and is trusted at least as much on each axis. -/
theorem evaluate_noWorse (hg : g.Sensible) (h : NoWorse s s') (hm : g.evaluate f s = .ok m)
    (hm' : g.evaluate f' s' = .ok m') :
    (m.deviations.x ≤ m'.deviations.x ∧ m.deviations.y ≤ m'.deviations.y ∧
      m.deviations.z ≤ m'.deviations.z) ∧
    (trust m'.deviations.x ≤ trust m.deviations.x ∧ trust m'.deviations.y ≤ trust m.deviations.y ∧
      trust m'.deviations.z ≤ trust m.deviations.z) := by
  obtain ⟨hfinite, -, -, -, -, rfl⟩ := evaluate_eq_ok hm
  obtain ⟨hfinite', htags', -, -, -, rfl⟩ := evaluate_eq_ok hm'
  have hdistance : ∀ {t : Sighting Float}, t.isFinite = true → t.tagDistance.isFinite = true := by
    intro t ht
    exact List.all_eq_true.mp ht _ (by simp)
  have hspread := h.spread hg (hdistance hfinite) (hdistance hfinite') htags'
  obtain ⟨hx, hy, hz⟩ := h.deviations hg hspread
  obtain ⟨hxpos, hypos, hzpos⟩ := deviations_pos leastDeviation_pos g s
  exact ⟨⟨hx, hy, hz⟩, trust_anti hxpos hx, trust_anti hypos hy, trust_anti hzpos hz⟩

theorem sensible_standard : (standard : GateSettings Float).Sensible where
  linear := ⟨rfl, by decide +kernel⟩
  angular := ⟨rfl, by decide +kernel⟩
  gyroLinear := ⟨rfl, by decide +kernel⟩
  cameras := by
    rintro c hc
    simp only [standard, List.mem_cons, List.not_mem_nil, or_false, or_self] at hc
    rw [hc]
    exact isFactor_one

/-- A near tag beside one so far away that its deviation overflows. -/
theorem evaluate_noWorse_farTag :
    let near : Sighting Float := { farTag with tags := 3, tagDistance := -2 }
    let seen (deviation : Float) : PoseMeasurement Float :=
      ⟨.make ⟨1, 1⟩ 4, 1, ⟨deviation, deviation, Scalar.infinity⟩⟩
    let deviation : Float := 0.02 * (4 / 3) * 0.5
    standard.evaluate .standard near = .ok (seen deviation) ∧
      standard.evaluate .standard farTag = .ok (seen Scalar.infinity) ∧
      trust (Scalar.infinity : Float) ≤ trust deviation := by
  intro near seen deviation
  have hnoWorse : NoWorse near farTag := ⟨rfl, rfl, by decide +kernel, by decide⟩
  have hnear : standard.evaluate .standard near = .ok (seen deviation) := by decide +kernel
  have hfar : standard.evaluate .standard farTag = .ok (seen Scalar.infinity) := by decide +kernel
  obtain ⟨-, htrust, -⟩ := evaluate_noWorse sensible_standard hnoWorse hnear hfar
  exact ⟨hnear, hfar, htrust⟩

end GateSettings

end SwerveLocalization
