import Mathlib
import SwerveLocalization.Proofs.BinarySearch
import SwerveLocalization.Proofs.Exact.Displacement
import SwerveLocalization.Proofs.Shot.Envelope

/-!
# Calibration curves without rounding

A curve that was made of points is the broken line through these points of the
plane: a stored value at a stored key, the line between two neighbours, and
constant before the first and behind the last. A lookup that bisects the points
for the two neighbours always finds them, and they never have one key. Where the
values do not fall from point to point, neither does the curve, nor the flywheel
speed that is read off it.
-/

namespace SwerveLocalization.Exact

open CalibrationCurve BinarySearch

/-- A point of the plane on a calibration curve. -/
def knot (a : ℝ × ℝ) : CalibrationPoint Exact := ⟨real a.1, real a.2⟩

/-- Points of the plane from left to right, no two above each other. -/
def LeftToRight (knots : List (ℝ × ℝ)) : Prop := knots.Pairwise fun a b => a.1 < b.1

/-- Points of the plane of which none is lower than one before it. -/
def Upward (knots : List (ℝ × ℝ)) : Prop := knots.Pairwise fun a b => a.2 ≤ b.2

/-! ## The line through two points -/

/-- The height at `t` of the line through two points. -/
noncomputable def lineAt (a b : ℝ × ℝ) (t : ℝ) : ℝ :=
  a.2 + (b.2 - a.2) * ((t - a.1) / (b.1 - a.1))

variable {a b : ℝ × ℝ} {t u : ℝ}

theorem lineAt_left (a b : ℝ × ℝ) : lineAt a b a.1 = a.2 := by simp [lineAt]

theorem lineAt_mem_segment (h : a.1 < b.1) (hleft : a.1 ≤ t) (hright : t ≤ b.1) :
    (t, lineAt a b t) ∈ segment ℝ a b := by
  have hwidth : 0 < b.1 - a.1 := sub_pos.mpr h
  rw [segment_eq_image_lineMap]
  refine ⟨(t - a.1) / (b.1 - a.1), ⟨?_, ?_⟩, ?_⟩
  · exact div_nonneg (sub_nonneg.mpr hleft) hwidth.le
  · exact (div_le_one hwidth).mpr (by linarith)
  · rw [AffineMap.lineMap_apply_module']
    refine Prod.ext ?_ ?_
    · simp [div_mul_cancel₀ _ hwidth.ne']
    · simp only [lineAt, Prod.snd_add, Prod.smul_snd, Prod.snd_sub, smul_eq_mul]
      ring

theorem lineAt_mem_uIcc (h : a.1 < b.1) (hleft : a.1 ≤ t) (hright : t ≤ b.1) :
    lineAt a b t ∈ Set.uIcc a.2 b.2 := by
  have hmem := (Prod.segment_subset _ _ (lineAt_mem_segment h hleft hright)).2
  rwa [segment_eq_uIcc] at hmem

theorem lineAt_mono (h : a.1 < b.1) (hvalue : a.2 ≤ b.2) (htu : t ≤ u) :
    lineAt a b t ≤ lineAt a b u := by
  have hwidth : 0 ≤ b.1 - a.1 := (sub_pos.mpr h).le
  have hrise : 0 ≤ b.2 - a.2 := sub_nonneg.mpr hvalue
  unfold lineAt
  gcongr

theorem lerp_knots (h : a.1 < b.1) (t : ℝ) :
    lerp (real a.2) (real b.2) (inverseLerp (real a.1) (real b.1) (real t))
      = real (lineAt a b t) := by
  rw [inverseLerp_real h]
  rfl

/-! ## The points of a curve -/

variable {points : List (CalibrationPoint Exact)} {p : CalibrationPoint Exact}
  {knots rest front back : List (ℝ × ℝ)} {x y : Exact}

/-- A curve of real points with increasing keys. -/
structure Rising (points : List (CalibrationPoint Exact)) : Prop where
  finite : ∀ p ∈ points, Scalar.isFinite p.key = true ∧ Scalar.isFinite p.value = true
  ordered : points.Pairwise fun p q => p.key < q.key

theorem real_lt_real_of_totalLe_eq_false {s t : ℝ}
    (h : Scalar.totalLe (real t) (real s) = false) : real s < real t := by
  have hrank : ¬ rank (real t) ≤ rank (real s) := of_decide_eq_false h
  rw [not_le] at hrank
  exact ⟨rfl, rfl, WithTop.coe_lt_coe.mp hrank⟩

theorem Rising.place (h : Rising points) (hkey : Scalar.isFinite p.key = true)
    (hvalue : Scalar.isFinite p.value = true) : Rising (CalibrationCurve.place p points) := by
  refine ⟨isFinite_place h.finite hkey hvalue, ?_⟩
  refine pairwise_place (R := (· < ·)) RealScalar.lt_trans ?_ h.ordered
  intro q hq
  obtain ⟨s, hs⟩ := isFinite_iff_exists.mp hkey
  obtain ⟨t, ht⟩ := isFinite_iff_exists.mp (h.finite q hq).1
  rw [hs, ht]
  exact ⟨real_lt_real_of_totalLe_eq_false, real_lt_real_of_totalLe_eq_false⟩

theorem rising_empty : Rising (empty : CalibrationCurve Exact).points :=
  ⟨fun _ hp => absurd hp List.not_mem_nil, List.Pairwise.nil⟩

theorem Rising.inserts {c after : CalibrationCurve Exact} (h : Rising c.points)
    {ps : List (CalibrationPoint Exact)}
    (hinserts : ps.foldlM CalibrationCurve.insert c = .ok after) : Rising after.points := by
  refine inserts_preserve (P := fun c => Rising c.points) ?_ h hinserts
  intro c next p hc hinsert
  obtain ⟨hkey, hvalue, rfl⟩ := insert_eq_ok hinsert
  exact hc.place hkey hvalue

theorem Rising.exists_knots (h : Rising points) :
    ∃ knots, points = knots.map knot ∧ LeftToRight knots := by
  have hknot : ∀ p ∈ points, knot (toReal p.key, toReal p.value) = p := by
    intro p hp
    unfold knot
    rw [real_toReal (h.finite p hp).1, real_toReal (h.finite p hp).2]
  refine ⟨points.map fun p => (toReal p.key, toReal p.value), ?_, ?_⟩
  · rw [List.map_map]
    exact ((List.map_congr_left hknot).trans (List.map_id _)).symm
  · refine List.pairwise_map.mpr (h.ordered.imp_of_mem fun {p q} hp hq hlt => ?_)
    rw [← real_toReal (h.finite p hp).1, ← real_toReal (h.finite q hq).1, real_lt_real] at hlt
    exact hlt

/-! ## Looking up -/

theorem eq_real_of_le_of_le (hle : x ≤ real t) (hge : real t ≤ x) : x = real t := by
  have hvalue : x.value = t := le_antisymm hle.2.2 hge.2.2
  cases x with
  | real s => exact congrArg real (EReal.coe_eq_coe_iff.mp hvalue)
  | posInf => exact absurd hvalue.symm (EReal.coe_ne_top t)
  | negInf => exact absurd hvalue.symm (EReal.coe_ne_bot t)
  | nan => exact absurd hle.1 (by simp [isNaN])

theorem exists_real_between {s : ℝ} (hs : real s ≤ x) (ht : ¬ real t ≤ x) :
    ∃ u, x = real u ∧ s ≤ u ∧ u < t := by
  obtain ⟨-, hnan, -⟩ := (RealScalar.le_iff _ _).mp hs
  have hlt : x < real t := (RealScalar.not_le hnan (isNaN_real t)).mp ht
  cases x with
  | real u => exact ⟨u, rfl, (real_le_real _ _).mp hs, (real_lt_real _ _).mp hlt⟩
  | posInf => exact absurd hlt.2.2 not_top_lt
  | negInf => exact absurd hs.2.2 (EReal.bot_lt_coe s).not_ge
  | nan => contradiction

theorem walk_self (h : LeftToRight (a :: rest)) :
    walk (real a.1) (knot a) (rest.map knot) = real a.2 := by
  cases rest with
  | nil => rfl
  | cons b rest =>
    have hlt : a.1 < b.1 := (List.pairwise_cons.mp h).1 b List.mem_cons_self
    rw [List.map_cons, walk, if_neg (by simpa [knot] using hlt), if_pos (by simp [knot])]
    rfl

/-- Between two neighbours a curve is straight. -/
theorem walk_knots (hleft : a.1 ≤ t) (hright : t < b.1) (rest : List (ℝ × ℝ)) :
    walk (real t) (knot a) ((b :: rest).map knot) = real (lineAt a b t) := by
  rw [List.map_cons, walk, if_neg (by simpa [knot] using hright)]
  split_ifs with heq
  · obtain rfl : t = a.1 := (real_beq_real _ _).mp heq
    rw [lineAt_left]
    rfl
  · exact lerp_knots (hleft.trans_lt hright) t

theorem walk_next (hb : real b.1 ≤ x) (rest : List (ℝ × ℝ)) :
    walk x (knot a) ((b :: rest).map knot) = walk x (knot b) (rest.map knot) := if_pos hb

/-- A lookup passes the points before the last one that is not behind `x`. -/
theorem walk_append (h : LeftToRight (a :: (front ++ b :: back))) (hb : real b.1 ≤ x) :
    walk x (knot a) ((front ++ b :: back).map knot) = walk x (knot b) (back.map knot) := by
  induction front generalizing a with
  | nil => exact walk_next hb back
  | cons c front ih =>
    have hrest := (List.pairwise_cons.mp h).2
    have hlt : c.1 < b.1 := (List.pairwise_cons.mp hrest).1 b (by simp)
    have hc : real c.1 ≤ x := RealScalar.le_trans ((real_le_real _ _).mpr hlt.le) hb
    rw [List.cons_append, walk_next hc]
    exact ih hrest

theorem get?_append (h : LeftToRight (front ++ a :: back)) (ha : real a.1 ≤ x) :
    get? ⟨(front ++ a :: back).map knot⟩ x = some (walk x (knot a) (back.map knot)) := by
  have hnan : ¬ Scalar.isNaN x = true := by simpa using ((RealScalar.le_iff _ _).mp ha).2.1
  cases front with
  | nil =>
    unfold get?
    simp only [List.nil_append, List.map_cons, if_neg hnan]
    split_ifs with hbefore
    · obtain rfl := eq_real_of_le_of_le hbefore ha
      rw [walk_self h]
      rfl
    · rfl
  | cons b front =>
    have hlt : b.1 < a.1 := (List.pairwise_cons.mp h).1 a (by simp)
    have hbehind : real b.1 < x := RealScalar.lt_of_lt_of_le ((real_lt_real _ _).mpr hlt) ha
    have hbefore : ¬ x ≤ (knot b).key := RealScalar.not_le_of_lt hbehind
    unfold get?
    simp only [List.cons_append, List.map_cons, if_neg hnan, if_neg hbefore]
    exact congrArg some (walk_append h ha)

theorem get?_of_le_first {x : Exact} (hx : x ≤ real a.1) :
    get? ⟨(a :: rest).map knot⟩ x = some (real a.2) := by
  have hnan : ¬ Scalar.isNaN x = true := by simpa using ((RealScalar.le_iff _ _).mp hx).1
  unfold get?
  simp only [List.map_cons, if_neg hnan]
  exact if_pos hx

theorem get?_eq_none_iff : get? ⟨knots.map knot⟩ x = none ↔ knots = [] ∨ Scalar.isNaN x = true := by
  unfold get?
  cases knots with
  | nil => simp
  | cons a rest =>
    simp only [List.map_cons, reduceCtorEq, false_or]
    split_ifs with hnan hbefore
    · simp [hnan]
    · simp [hnan]
    · simp [hnan]

/-- The broken line through points of the plane: constant before the first and behind
the last, and nothing where there is no number. -/
structure Interpolates (f : Exact → Option Exact) (knots : List (ℝ × ℝ)) : Prop where
  none_iff : ∀ x, f x = none ↔ knots = [] ∨ Scalar.isNaN x = true
  stored : ∀ a ∈ knots, f (real a.1) = some (real a.2)
  before : ∀ a ∈ knots.head?, ∀ x ≤ real a.1, f x = some (real a.2)
  behind : ∀ a ∈ knots.getLast?, ∀ x ≥ real a.1, f x = some (real a.2)
  between : ∀ a b, [a, b] <:+: knots → ∀ t, a.1 < t → t < b.1 →
    ∃ v, f (real t) = some (real v) ∧ (t, v) ∈ segment ℝ a b ∧ v ∈ Set.uIcc a.2 b.2

theorem get?_interpolates (h : LeftToRight knots) : Interpolates (get? ⟨knots.map knot⟩) knots where
  none_iff x := get?_eq_none_iff
  stored a ha := by
    obtain ⟨front, back, rfl⟩ := List.append_of_mem ha
    rw [get?_append h ((real_le_real _ _).mpr le_rfl), walk_self (List.pairwise_append.mp h).2.1]
  before a ha x hx := by
    obtain ⟨rest, rfl⟩ := List.head?_eq_some_iff.mp ha
    exact get?_of_le_first hx
  behind a ha x hx := by
    obtain ⟨front, rfl⟩ := List.getLast?_eq_some_iff.mp ha
    rw [get?_append h hx]
    rfl
  between a b hab t hleft hright := by
    obtain ⟨front, back, rfl⟩ := hab
    rw [List.append_assoc, List.cons_append, List.cons_append, List.nil_append] at *
    have hlt : a.1 < b.1 := hleft.trans hright
    refine ⟨lineAt a b t, ?_, lineAt_mem_segment hlt hleft.le hright.le,
      lineAt_mem_uIcc hlt hleft.le hright.le⟩
    rw [get?_append h ((real_le_real _ _).mpr hleft.le), walk_knots hleft.le hright]

/-! ## Bisection -/

/-- How many points are not behind `x`, found by bisection. -/
def passedCount {α : Type} [Scalar α] (points : List (CalibrationPoint α)) (x : α) : Nat :=
  partitionPoint (fun p => decide (p.key ≤ x)) points

theorem exists_neighbours (ha : real a.1 ≤ x) (hrest : ∃ b ∈ rest, ¬ real b.1 ≤ x) :
    ∃ front c d back, a :: rest = front ++ c :: d :: back ∧ real c.1 ≤ x ∧ ¬ real d.1 ≤ x := by
  induction rest generalizing a with
  | nil =>
    obtain ⟨b, hb, -⟩ := hrest
    contradiction
  | cons b rest ih =>
    by_cases hb : real b.1 ≤ x
    · have hrest' : ∃ c ∈ rest, ¬ real c.1 ≤ x := by
        obtain ⟨c, hc, hcx⟩ := hrest
        rcases List.mem_cons.mp hc with rfl | hc
        · contradiction
        · exact ⟨c, hc, hcx⟩
      obtain ⟨front, c, d, back, hsplit, hc, hd⟩ := ih hb hrest'
      exact ⟨a :: front, c, d, back, by rw [hsplit, List.cons_append], hc, hd⟩
    · exact ⟨[], a, b, rest, rfl, ha, hb⟩

/-- The points of a curve are not behind `x` first, and behind it from then on. -/
theorem passedCount_append (h : LeftToRight (front ++ a :: b :: back)) (ha : real a.1 ≤ x)
    (hb : ¬ real b.1 ≤ x) :
    passedCount ((front ++ a :: b :: back).map knot) x = front.length + 1 := by
  have hsplit : (front ++ a :: b :: back).map knot
      = (front ++ [a]).map knot ++ (b :: back).map knot := by simp
  obtain ⟨-, htail, hfront⟩ := List.pairwise_append.mp h
  have hback := (List.pairwise_cons.mp (List.pairwise_cons.mp htail).2).1
  rw [passedCount, hsplit, partitionPoint_append, List.length_map, List.length_append,
    List.length_singleton]
  · refine List.forall_mem_map.mpr fun c hc => decide_eq_true ?_
    rcases List.mem_append.mp hc with hc | hc
    · have hlt := hfront c hc a List.mem_cons_self
      exact RealScalar.le_trans ((real_le_real _ _).mpr hlt.le) ha
    · obtain rfl := List.mem_singleton.mp hc
      exact ha
  · refine List.forall_mem_map.mpr fun c hc => decide_eq_false fun hle => hb ?_
    rcases List.mem_cons.mp hc with rfl | hc
    · exact hle
    · exact RealScalar.le_trans ((real_le_real _ _).mpr (hback c hc).le) hle

/-- Between the first and the last point a bisection finds two neighbours of different keys,
and the curve is read off them. -/
theorem get?_bisect {first last : ℝ × ℝ} (h : LeftToRight knots) (hfirst : knots.head? = some first)
    (hlast : knots.getLast? = some last) (hafter : real first.1 < x) (hbefore : x < real last.1) :
    1 ≤ passedCount (knots.map knot) x ∧ ∃ p q,
      (knots.map knot)[passedCount (knots.map knot) x - 1]? = some p ∧
      (knots.map knot)[passedCount (knots.map knot) x]? = some q ∧
      q.key - p.key ≠ 0 ∧
      get? ⟨knots.map knot⟩ x = some (if x == p.key then p.value
        else lerp p.value q.value (inverseLerp p.key q.key x)) := by
  obtain ⟨rest, rfl⟩ := List.head?_eq_some_iff.mp hfirst
  have hrest : ∃ b ∈ rest, ¬ real b.1 ≤ x := by
    refine ⟨last, ?_, RealScalar.not_le_of_lt hbefore⟩
    rcases List.mem_cons.mp (List.mem_of_getLast? hlast) with rfl | hmem
    · exact absurd (RealScalar.lt_trans hafter hbefore) (RealScalar.lt_irrefl _)
    · exact hmem
  obtain ⟨front, a, b, back, hsplit, ha, hb⟩ := exists_neighbours (RealScalar.le_of_lt hafter) hrest
  rw [hsplit] at h ⊢
  rw [passedCount_append h ha hb, get?_append h ha]
  have hlt : a.1 < b.1 :=
    (List.pairwise_cons.mp (List.pairwise_append.mp h).2.1).1 b List.mem_cons_self
  refine ⟨by omega, knot a, knot b, by simp, by simp, ?_, congrArg some (if_neg hb)⟩
  intro hzero
  exact sub_ne_zero.mpr hlt.ne' (Exact.real.inj hzero)

/-! ## Monotonicity -/

theorem walk_ge (h : LeftToRight (a :: rest)) (hup : Upward (a :: rest)) (ha : real a.1 ≤ x) :
    real a.2 ≤ walk x (knot a) (rest.map knot) := by
  induction rest generalizing a with
  | nil => exact (real_le_real _ _).mpr le_rfl
  | cons b rest ih =>
    have hlt : a.1 < b.1 := (List.pairwise_cons.mp h).1 b List.mem_cons_self
    have hrise : a.2 ≤ b.2 := (List.pairwise_cons.mp hup).1 b List.mem_cons_self
    by_cases hb : real b.1 ≤ x
    · rw [walk_next hb]
      have hrest := ih (List.pairwise_cons.mp h).2 (List.pairwise_cons.mp hup).2 hb
      exact RealScalar.le_trans ((real_le_real _ _).mpr hrise) hrest
    · obtain ⟨t, rfl, hleft, hright⟩ := exists_real_between ha hb
      rw [walk_knots hleft hright, real_le_real, ← lineAt_left a b]
      exact lineAt_mono hlt hrise hleft

theorem walk_mono (h : LeftToRight (a :: rest)) (hup : Upward (a :: rest)) (ha : real a.1 ≤ x)
    (hxy : x ≤ y) : walk x (knot a) (rest.map knot) ≤ walk y (knot a) (rest.map knot) := by
  induction rest generalizing a with
  | nil => exact (real_le_real _ _).mpr le_rfl
  | cons b rest ih =>
    have hlt : a.1 < b.1 := (List.pairwise_cons.mp h).1 b List.mem_cons_self
    have hrise : a.2 ≤ b.2 := (List.pairwise_cons.mp hup).1 b List.mem_cons_self
    have hrest := (List.pairwise_cons.mp h).2
    have huprest := (List.pairwise_cons.mp hup).2
    by_cases hx : real b.1 ≤ x
    · rw [walk_next hx, walk_next (RealScalar.le_trans hx hxy)]
      exact ih hrest huprest hx
    · obtain ⟨t, rfl, hleft, hright⟩ := exists_real_between ha hx
      rw [walk_knots hleft hright]
      by_cases hy : real b.1 ≤ y
      · -- the line ends at the value where the rest of the curve starts
        have hend : lineAt a b t ≤ b.2 := by
          have hmem := lineAt_mem_uIcc hlt hleft hright.le
          rw [Set.uIcc_of_le hrise] at hmem
          exact hmem.2
        rw [walk_next hy]
        exact RealScalar.le_trans ((real_le_real _ _).mpr hend) (walk_ge hrest huprest hy)
      · obtain ⟨u, rfl, hleft', hright'⟩ := exists_real_between (RealScalar.le_trans ha hxy) hy
        rw [walk_knots hleft' hright', real_le_real]
        exact lineAt_mono hlt hrise ((real_le_real _ _).mp hxy)

/-- A curve through points that do not fall does not fall. -/
theorem get?_mono (h : LeftToRight knots) (hup : Upward knots) (hxy : x ≤ y) :
    ∀ v ∈ get? ⟨knots.map knot⟩ x, ∀ w ∈ get? ⟨knots.map knot⟩ y, v ≤ w := by
  intro v hv w hw
  cases knots with
  | nil => contradiction
  | cons a rest =>
    obtain ⟨hxnan, hynan, -⟩ := (RealScalar.le_iff x y).mp hxy
    have hafter : ∀ {z : Exact}, Scalar.isNaN z = false → ¬ z ≤ real a.1 → real a.1 ≤ z :=
      fun hz hnot => RealScalar.le_of_lt ((RealScalar.not_le (isNaN_real _) hz).mp hnot)
    have hlookup : ∀ {z : Exact}, real a.1 ≤ z →
        get? ⟨(a :: rest).map knot⟩ z = some (walk z (knot a) (rest.map knot)) :=
      fun hz => get?_append (show LeftToRight ([] ++ a :: rest) from h) hz
    by_cases hx : x ≤ real a.1
    · rw [get?_of_le_first hx] at hv
      obtain rfl := Option.some.inj hv
      by_cases hy : y ≤ real a.1
      · rw [get?_of_le_first hy] at hw
        obtain rfl := Option.some.inj hw
        exact (real_le_real _ _).mpr le_rfl
      · rw [hlookup (hafter hynan hy)] at hw
        obtain rfl := Option.some.inj hw
        exact walk_ge h hup (hafter hynan hy)
    · have hax := hafter hxnan hx
      rw [hlookup hax] at hv
      rw [hlookup (RealScalar.le_trans hax hxy)] at hw
      obtain rfl := Option.some.inj hv
      obtain rfl := Option.some.inj hw
      exact walk_mono h hup hax hxy

theorem flywheelFor_mono {limits : ShotLimits Exact} {s : Shooter Exact} (h : LeftToRight knots)
    (hup : Upward knots) (hbuild : Shooter.build limits ⟨knots.map knot⟩ = .ok s) (hxy : x ≤ y) :
    (s.flywheelFor x).speed ≤ (s.flywheelFor y).speed := by
  obtain ⟨rfl, hmin, hmax, hrange⟩ := Shooter.build_eq_ok hbuild
  obtain ⟨hxnan, hynan, -⟩ := (RealScalar.le_iff x y).mp hxy
  have hlow := RealScalar.le_refl hmin
  have hhigh := RealScalar.le_refl hmax
  unfold Shooter.flywheelFor
  dsimp only
  cases hx : get? ⟨knots.map knot⟩ x with
  | none =>
    have hy : get? ⟨knots.map knot⟩ y = none := by
      rw [get?_eq_none_iff] at hx ⊢
      exact .inl (hx.resolve_right (by simp [hxnan]))
    rw [hy]
    exact hlow
  | some v =>
    cases hy : get? ⟨knots.map knot⟩ y with
    | none =>
      rw [get?_eq_none_iff] at hy
      obtain rfl := hy.resolve_right (by simp [hynan])
      contradiction
    | some w => exact confine_mono hlow hhigh hrange (get?_mono h hup hxy v hx w hy)

/-! ## Curves made of points -/

/-- A curve that was made of points is the broken line through them. The neighbours of a
key are found by bisection: the place that it ends at and the one before it are
places of the list, and the keys there differ. If the values do not fall from
point to point, neither do the curve and the speed of a shooter that reads it. -/
theorem inserts_interpolate {start curve : CalibrationCurve Exact}
    {ps qs : List (CalibrationPoint Exact)} (hpoints : ofPoints ps = .ok start)
    (hinserts : qs.foldlM CalibrationCurve.insert start = .ok curve) :
    ∃ knots, curve.points = knots.map knot ∧ LeftToRight knots ∧
      Interpolates curve.get? knots ∧
      (∀ first last x, curve.points.head? = some first → curve.points.getLast? = some last →
        first.key < x → x < last.key →
        let upper := passedCount curve.points x
        1 ≤ upper ∧ upper < curve.points.length ∧
          ∃ p q, curve.points[upper - 1]? = some p ∧ curve.points[upper]? = some q ∧
            q.key - p.key ≠ 0 ∧
            curve.get? x = some (if x == p.key then p.value
              else lerp p.value q.value (inverseLerp p.key q.key x))) ∧
      (Upward knots → ∀ x y, x ≤ y →
        (∀ v ∈ curve.get? x, ∀ w ∈ curve.get? y, v ≤ w) ∧
        ∀ limits s, Shooter.build limits curve = .ok s →
          (s.flywheelFor x).speed ≤ (s.flywheelFor y).speed) := by
  obtain ⟨knots, hknots, hordered⟩ := ((rising_empty.inserts hpoints).inserts hinserts).exists_knots
  obtain rfl : curve = ⟨knots.map knot⟩ := congrArg CalibrationCurve.mk hknots
  refine ⟨knots, rfl, hordered, get?_interpolates hordered, ?_, ?_⟩
  · intro p q x hfirst hlast hafter hbefore upper
    rw [List.head?_map, Option.map_eq_some_iff] at hfirst
    rw [List.getLast?_map, Option.map_eq_some_iff] at hlast
    obtain ⟨first, hfirst, rfl⟩ := hfirst
    obtain ⟨last, hlast, rfl⟩ := hlast
    obtain ⟨hlower, p, q, hp, hq, hread⟩ := get?_bisect hordered hfirst hlast hafter hbefore
    obtain ⟨hupper, -⟩ := List.getElem?_eq_some_iff.mp hq
    exact ⟨hlower, hupper, p, q, hp, hq, hread⟩
  · intro hup x y hxy
    exact ⟨get?_mono hordered hup hxy, fun _ _ hbuild => flywheelFor_mono hordered hup hbuild hxy⟩

/-- Halfway between two points, of which the first was added last. -/
theorem inserts_interpolate_halfway :
    ∃ start curve : CalibrationCurve Exact,
      ofPoints [⟨real 3, real 1500⟩] = .ok start ∧
      [⟨real 1, real 1000⟩].foldlM CalibrationCurve.insert start = .ok curve ∧
      curve.get? (real 2) = some (real 1250) ∧ curve.get? posInf = some (real 1500) ∧
      curve.get? nan = none := by
  have hplace : Scalar.totalLe (real 1) (real 3) = true ∧
      Scalar.totalLe (real 3) (real 1) = false := by
    constructor
    · exact decide_eq_true (WithTop.coe_le_coe.mpr (EReal.coe_le_coe_iff.mpr (by norm_num)))
    · refine decide_eq_false fun hle => ?_
      have hle := EReal.coe_le_coe_iff.mp (WithTop.coe_le_coe.mp hle)
      norm_num at hle
  have hpoints : ofPoints [⟨real 3, real 1500⟩] = .ok ⟨[(3, 1500)].map knot⟩ := rfl
  have hinserts : [⟨real 1, real 1000⟩].foldlM CalibrationCurve.insert ⟨[(3, 1500)].map knot⟩
      = .ok ⟨[(1, 1000), (3, 1500)].map knot⟩ := by
    simp [CalibrationCurve.insert, CalibrationCurve.place, hplace, knot]
  obtain ⟨knots, hknots, -, hline, -⟩ := inserts_interpolate hpoints hinserts
  obtain rfl : [(1, 1000), (3, 1500)] = knots := by
    refine List.map_injective_iff.mpr ?_ hknots
    rintro ⟨k, v⟩ ⟨k', v'⟩ heq
    simpa [knot] using heq
  refine ⟨_, _, hpoints, hinserts, ?_, hline.behind (3, 1500) rfl posInf ⟨rfl, rfl, le_top⟩,
    (hline.none_iff nan).mpr (.inr rfl)⟩
  obtain ⟨v, hv, hsegment, -⟩ := hline.between (1, 1000) (3, 1500) ⟨[], [], rfl⟩ 2
    (by norm_num) (by norm_num)
  obtain ⟨l, r, -, -, hsum, heq⟩ := hsegment
  obtain ⟨hkey, hvalue⟩ := Prod.mk.inj heq
  change l * 1 + r * 3 = 2 at hkey
  change l * 1000 + r * 1500 = v at hvalue
  obtain rfl : v = 1250 := by linarith
  exact hv

end SwerveLocalization.Exact
