import Mathlib
import SwerveLocalization.Chassis.Kinematics
import SwerveLocalization.Proofs.Binary64.Library
import SwerveLocalization.Proofs.Binary64.Magnitude

/-!
# Chassis that can stand still

The shares of the wheels are computed once, when a chassis is built, and nothing is
checked of them. Main statement: a chassis finds that it stands still when its wheels
do, exactly if all its shares are finite; and this is so for every chassis that could
be built, unless a coordinate of a wheel is so large or so small that squares of
coordinates leave the range of the numbers.
-/

namespace SwerveLocalization

theorem Wheels.forall_mem_toList {β : Type} {P : β → Prop} {w : Wheels β} :
    (∀ b ∈ w.toList, P b) ↔ P w.frontLeft ∧ P w.frontRight ∧ P w.backLeft ∧ P w.backRight := by
  simp [toList]

section Shares

variable {α : Type} [Scalar α]

/-- Whether all components are finite. -/
def Vec3.isFinite (v : Vec3 α) : Bool :=
  Scalar.isFinite v.x && Scalar.isFinite v.y && Scalar.isFinite v.z

/-- Whether a chassis does not move at all. -/
def ChassisVelocity.isZero (v : ChassisVelocity α) : Bool := v.vx == 0 && v.vy == 0 && v.omega == 0

/-- Whether a motion leads nowhere. -/
def Twist.isZero (m : Twist α) : Bool := m.dx == 0 && m.dy == 0 && m.dtheta == 0

/-- Whether all shares of the wheels are finite. -/
def Chassis.sharesFinite (c : Chassis α) : Bool :=
  c.shares.toList.all fun s => s.along.isFinite && s.across.isFinite

end Shares

namespace Chassis

open Binary64

/-! ## Wheels at rest -/

/-- One component of what a chassis finds for its wheels. -/
def weigh (weights : Wheels (Float × Float)) (w : Wheels (Vec2 Float)) : Float :=
  let parts := weights.zipWith (fun a v => (a.1 * v.x, a.2 * v.y)) w
  parts.frontLeft.1 + parts.frontLeft.2 + parts.frontRight.1 + parts.frontRight.2
    + parts.backLeft.1 + parts.backLeft.2 + parts.backRight.1 + parts.backRight.2

theorem solve_eq (c : Chassis Float) (w : Wheels (Vec2 Float)) :
    c.solve w = ⟨weigh (c.shares.map fun s => (s.along.x, s.across.x)) w,
      weigh (c.shares.map fun s => (s.along.y, s.across.y)) w,
      weigh (c.shares.map fun s => (s.along.z, s.across.z)) w⟩ := rfl

theorem isFinite_of_mul_isZero {x y : Float} (h : (x * y).isFinite = true) (hy : IsZero y) :
    x.isFinite = true := by
  by_contra hnot
  have hnan := isNaN_mul_of_zero (x := x) (by simpa using hnot) hy.1 hy.2
  rw [((isFinite_iff _).mp h).1] at hnan
  contradiction

/-- A share that is NaN spoils every motion. -/
theorem isNaN_motion {c : Chassis Float} (h : c.shares.frontLeft.along.x.isNaN = true)
    (travels : Wheels (WheelTravel Float)) : (c.motion travels).dx.isNaN = true := by
  have hpart := isNaN_mul (y := travels.frontLeft.path.x) (.inl h)
  unfold motion solve
  -- it is the first of eight parts that are summed from the left
  iterate 7 refine isNaN_add (.inl ?_)
  exact hpart

/-- A weight that is not finite makes NaN of a zero. -/
theorem isZero_weigh_iff {weights : Wheels (Float × Float)} {w : Wheels (Vec2 Float)}
    (hw : ∀ v ∈ w.toList, IsZero v.x ∧ IsZero v.y) :
    IsZero (weigh weights w) ↔
      ∀ a ∈ weights.toList, a.1.isFinite = true ∧ a.2.isFinite = true := by
  rw [Wheels.forall_mem_toList] at hw ⊢
  obtain ⟨⟨h1, h2⟩, ⟨h3, h4⟩, ⟨h5, h6⟩, ⟨h7, h8⟩⟩ := hw
  constructor
  · intro h
    obtain ⟨hsum, hp8⟩ := isFinite_of_add h.1
    obtain ⟨hsum, hp7⟩ := isFinite_of_add hsum
    obtain ⟨hsum, hp6⟩ := isFinite_of_add hsum
    obtain ⟨hsum, hp5⟩ := isFinite_of_add hsum
    obtain ⟨hsum, hp4⟩ := isFinite_of_add hsum
    obtain ⟨hsum, hp3⟩ := isFinite_of_add hsum
    obtain ⟨hp1, hp2⟩ := isFinite_of_add hsum
    exact ⟨⟨isFinite_of_mul_isZero hp1 h1, isFinite_of_mul_isZero hp2 h2⟩,
      ⟨isFinite_of_mul_isZero hp3 h3, isFinite_of_mul_isZero hp4 h4⟩,
      ⟨isFinite_of_mul_isZero hp5 h5, isFinite_of_mul_isZero hp6 h6⟩,
      ⟨isFinite_of_mul_isZero hp7 h7, isFinite_of_mul_isZero hp8 h8⟩⟩
  · rintro ⟨⟨hp1, hp2⟩, ⟨hp3, hp4⟩, ⟨hp5, hp6⟩, ⟨hp7, hp8⟩⟩
    exact (((((((h1.mul_left hp1).add (h2.mul_left hp2)).add (h3.mul_left hp3)).add
      (h4.mul_left hp4)).add (h5.mul_left hp5)).add (h6.mul_left hp6)).add (h7.mul_left hp7)).add
        (h8.mul_left hp8)

theorem solve_isZero_iff {c : Chassis Float} {w : Wheels (Vec2 Float)}
    (hw : ∀ v ∈ w.toList, IsZero v.x ∧ IsZero v.y) :
    (IsZero (c.solve w).x ∧ IsZero (c.solve w).y ∧ IsZero (c.solve w).z) ↔ c.sharesFinite = true := by
  rw [solve_eq]
  simp only [isZero_weigh_iff hw, Wheels.toList_map, List.forall_mem_map, sharesFinite, Vec3.isFinite,
    List.all_eq_true, Bool.and_eq_true]
  constructor
  · rintro ⟨hx, hy, hz⟩ s hs
    exact ⟨⟨⟨(hx s hs).1, (hy s hs).1⟩, (hz s hs).1⟩, ⟨(hx s hs).2, (hy s hs).2⟩, (hz s hs).2⟩
  · intro h
    exact ⟨fun s hs => ⟨(h s hs).1.1.1, (h s hs).2.1.1⟩, fun s hs => ⟨(h s hs).1.1.2, (h s hs).2.1.2⟩,
      fun s hs => ⟨(h s hs).1.2, (h s hs).2.2⟩⟩

/-! ## Degrees -/

/-- A coordinate that is zero, or lies between `2 ^ -200` and `2 ^ 200` in magnitude. -/
inductive Moderate (x : Float) : Prop
  | zero (h : IsZero x)
  | ordinary (finite : x.isFinite = true) (lower : 1 ≤ |real x| * 2 ^ 200) (upper : |real x| ≤ 2 ^ 200)

/-- As large and as fine as a product of `d` moderate coordinates, times `2 ^ n`. -/
def HasDegree (d n : ℕ) (x : Float) : Prop := Fits (252 * d) (200 * d + n) x

variable {d e m n : ℕ} {w x y z : Float}

theorem HasDegree.mono (hx : HasDegree d m x) (hmn : m ≤ n) : HasDegree d n x :=
  Fits.mono hx (Nat.add_le_add_left hmn _)

theorem HasDegree.add (hx : HasDegree d n x) (hy : HasDegree d n y) (h : 200 * d + n + 1 ≤ 1023) :
    HasDegree d (n + 1) (x + y) := Fits.add hx hy h

theorem HasDegree.sub (hx : HasDegree d n x) (hy : HasDegree d n y) (h : 200 * d + n + 1 ≤ 1023) :
    HasDegree d (n + 1) (x - y) := Fits.sub hx hy h

theorem HasDegree.mul (hx : HasDegree d m x) (hy : HasDegree e n y)
    (h : 200 * (d + e) + (m + n) ≤ 1023) : HasDegree (d + e) (m + n) (x * y) := by
  have hproduct := Fits.mul hx hy (by omega)
  unfold HasDegree
  convert hproduct using 1 <;> ring

theorem hasDegree_zero : HasDegree 0 0 0 := by
  refine ⟨⟨rfl, ?_⟩, 0, ?_⟩ <;> rw [real_zero] <;> norm_num

theorem hasDegree_one : HasDegree 0 0 1 := by
  refine ⟨⟨rfl, ?_⟩, 1, ?_⟩ <;> rw [real_one] <;> norm_num

/-- A number is a whole multiple of the last of its 53 digits. -/
theorem Moderate.hasDegree (hx : Moderate x) : HasDegree 1 0 x := by
  cases hx with
  | zero h => refine ⟨⟨h.1, ?_⟩, 0, ?_⟩ <;> rw [h.2] <;> norm_num
  | ordinary hfinite hlower hupper =>
    refine ⟨⟨hfinite, hupper⟩, ?_⟩
    rcases unpack_cases hfinite with ⟨s, -, hzero⟩ | ⟨s, m, e, hm, -, hdigits, -, hreal⟩
    · rw [hzero] at hlower
      norm_num at hlower
    have habs : |real x| = m * 2 ^ e := by
      rw [hreal, dyadic_eq_withSign]
      cases s <;> simp [withSign, abs_mul]
    -- the last of the digits stands at most 52 places behind the first
    have hplace : -252 ≤ e := by
      by_contra hlow
      have hshort : (m : ℝ) < 2 ^ 53 := by exact_mod_cast hdigits.short
      have hscaled : (m : ℝ) * 2 ^ e * 2 ^ 200 < 1 := by
        calc (m : ℝ) * 2 ^ e * 2 ^ 200 ≤ m * 2 ^ (-253 : ℤ) * 2 ^ 200 := by
              gcongr
              · norm_num
              · omega
          _ < 2 ^ 53 * 2 ^ (-253 : ℤ) * 2 ^ 200 := by gcongr
          _ = 1 := by norm_num
      rw [habs] at hlower
      linarith
    refine ⟨s.apply m * 2 ^ (e + 252).toNat, ?_⟩
    have hshift : (2 : ℝ) ^ e * 2 ^ (252 * 1) = 2 ^ (e + 252).toNat := by
      rw [← zpow_natCast, ← zpow_natCast, ← zpow_add₀ (by norm_num)]
      congr 1
      omega
    rw [hreal, dyadic, mul_assoc, hshift]
    push_cast
    rfl

/-! ## Shares -/

/-- A row of a matrix of products of a row vector with itself, where its third component
is a coordinate. -/
structure RowOf (d n : ℕ) (v : Vec3 Float) : Prop where
  x : HasDegree d n v.x
  y : HasDegree d n v.y
  z : HasDegree (d + 1) n v.z

/-- A matrix of products of such vectors. -/
structure ProductMatrix (n : ℕ) (a : Matrix3 Float) : Prop where
  first : RowOf 0 n ⟨a.m11, a.m12, a.m13⟩
  second : RowOf 0 n ⟨a.m21, a.m22, a.m23⟩
  third : RowOf 1 n ⟨a.m31, a.m32, a.m33⟩

variable {u v : Vec3 Float} {a b : Matrix3 Float}

theorem rowOf_alongRow {o : Vec2 Float} (ho : Moderate o.y) : RowOf 0 0 (alongRow o) :=
  ⟨hasDegree_one, hasDegree_zero, Fits.neg ho.hasDegree⟩

theorem rowOf_acrossRow {o : Vec2 Float} (ho : Moderate o.x) : RowOf 0 0 (acrossRow o) :=
  ⟨hasDegree_zero, hasDegree_one, ho.hasDegree⟩

theorem productMatrix_square (hv : RowOf 0 0 v) : ProductMatrix 0 (Matrix3.square v) :=
  ⟨⟨hv.x.mul hv.x (by norm_num), hv.x.mul hv.y (by norm_num), hv.x.mul hv.z (by norm_num)⟩,
    ⟨hv.y.mul hv.x (by norm_num), hv.y.mul hv.y (by norm_num), hv.y.mul hv.z (by norm_num)⟩,
    ⟨hv.z.mul hv.x (by norm_num), hv.z.mul hv.y (by norm_num), hv.z.mul hv.z (by norm_num)⟩⟩

theorem RowOf.add (hu : RowOf d n u) (hv : RowOf d 0 v) (h : 200 * (d + 1) + n + 1 ≤ 1023) :
    RowOf d (n + 1) (u + v) :=
  ⟨hu.x.add (hv.x.mono n.zero_le) (by omega), hu.y.add (hv.y.mono n.zero_le) (by omega),
    hu.z.add (hv.z.mono n.zero_le) h⟩

theorem ProductMatrix.add (ha : ProductMatrix n a) (hb : ProductMatrix 0 b) (h : n ≤ 600) :
    ProductMatrix (n + 1) (a + b) := by
  have hfirst := ha.first.add hb.first (by omega)
  have hsecond := ha.second.add hb.second (by omega)
  have hthird := ha.third.add hb.third (by omega)
  exact ⟨hfirst, hsecond, hthird⟩

theorem productMatrix_normalMatrix {offsets : Wheels (Vec2 Float)}
    (h : ∀ o ∈ offsets.toList, Moderate o.x ∧ Moderate o.y) :
    ProductMatrix 7 (normalMatrix offsets) := by
  have halong : ∀ o ∈ offsets.toList, ProductMatrix 0 (Matrix3.square (alongRow o)) :=
    fun o ho => productMatrix_square (rowOf_alongRow (h o ho).2)
  have hacross : ∀ o ∈ offsets.toList, ProductMatrix 0 (Matrix3.square (acrossRow o)) :=
    fun o ho => productMatrix_square (rowOf_acrossRow (h o ho).1)
  rw [Wheels.forall_mem_toList] at halong hacross
  obtain ⟨hfl, hfr, hbl, hbr⟩ := halong
  obtain ⟨hfl', hfr', hbl', hbr'⟩ := hacross
  exact (((((((hfl.add hfl' (by norm_num)).add hfr (by norm_num)).add hfr' (by norm_num)).add hbl
    (by norm_num)).add hbl' (by norm_num)).add hbr (by norm_num)).add hbr' (by norm_num))

/-- A minor of two rows and columns. -/
theorem hasDegree_minor (hw : HasDegree d 7 w) (hx : HasDegree e 7 x) {d' e' : ℕ}
    (hy : HasDegree d' 7 y) (hz : HasDegree e' 7 z) (hdegree : d' + e' = d + e) (hle : d + e ≤ 2) :
    HasDegree (d + e) 15 (w * x - y * z) := by
  have hsecond := hy.mul hz (by omega)
  rw [hdegree] at hsecond
  exact (hw.mul hx (by omega)).sub hsecond (by omega)

theorem ProductMatrix.det (ha : ProductMatrix 7 a) : HasDegree 2 24 a.det := by
  obtain ⟨⟨h11, h12, h13⟩, ⟨h21, h22, h23⟩, ⟨h31, h32, h33⟩⟩ := ha
  have hfirst : HasDegree 2 22 (a.m11 * (a.m22 * a.m33 - a.m32 * a.m23)) :=
    h11.mul (hasDegree_minor h22 h33 h32 h23 rfl (by norm_num)) (by norm_num)
  have hsecond : HasDegree 2 22 (a.m12 * (a.m21 * a.m33 - a.m31 * a.m23)) :=
    h12.mul (hasDegree_minor h21 h33 h31 h23 rfl (by norm_num)) (by norm_num)
  have hthird : HasDegree 2 22 (a.m13 * (a.m21 * a.m32 - a.m31 * a.m22)) :=
    h13.mul (hasDegree_minor h21 h32 h31 h22 rfl (by norm_num)) (by norm_num)
  exact (hfirst.sub hsecond (by norm_num)).add (hthird.mono (by norm_num)) (by norm_num)

/-- A row of an inverse: what it is multiplied with has degree `d`. -/
structure InverseRow (d : ℕ) (v : Vec3 Float) : Prop where
  x : Within (200 * d + 719) v.x
  y : Within (200 * d + 719) v.y
  z : Within (200 * d + 519) v.z

theorem InverseRow.dot (hu : InverseRow d u) (hv : RowOf 0 0 v) (hd : d ≤ 1) :
    (u.dot v).isFinite = true := by
  have hx : Within (200 * d + 719) (u.x * v.x) := hu.x.mul hv.x.toWithin (by omega)
  have hy : Within (200 * d + 719) (u.y * v.y) := hu.y.mul hv.y.toWithin (by omega)
  have hz : Within (200 * d + 719) (u.z * v.z) := hu.z.mul hv.z.toWithin (by omega)
  exact ((hx.add hy (by omega)).add (hz.mono (by omega)) (by omega)).finite

theorem ProductMatrix.inverse? (ha : ProductMatrix 7 a) (h : a.inverse? = some b) :
    InverseRow 1 ⟨b.m11, b.m12, b.m13⟩ ∧ InverseRow 1 ⟨b.m21, b.m22, b.m23⟩ ∧
      InverseRow 0 ⟨b.m31, b.m32, b.m33⟩ := by
  have hdet := ha.det
  unfold Matrix3.inverse? at h
  dsimp only at h
  split at h
  · contradiction
  · rename_i hne
    obtain rfl := (Option.some.inj h).symm
    -- a determinant that is not zero is at least one unit of what it is a multiple of
    have hlarge : 1 ≤ |real a.det| * 2 ^ (252 * 2) := by
      refine Fits.one_le hdet fun hzero => hne ?_
      exact isZero_iff_beq.mp ⟨hdet.finite, hzero⟩
    obtain ⟨⟨h11, h12, h13⟩, ⟨h21, h22, h23⟩, ⟨h31, h32, h33⟩⟩ := ha
    have hover : ∀ {d : ℕ} {m : Float}, HasDegree d 15 m → d ≤ 2 →
        Within (200 * d + 15 + 252 * 2) (m / a.det) :=
      fun hm hd => hm.toWithin.div hdet.finite hlarge (by omega)
    have hminor : ∀ {d e d' e' : ℕ} {w x y z : Float}, HasDegree d 7 w → HasDegree e 7 x →
        HasDegree d' 7 y → HasDegree e' 7 z → d' + e' = d + e → d + e ≤ 2 →
        Within (200 * (d + e) + 15 + 252 * 2) ((w * x - y * z) / a.det) :=
      fun hw hx hy hz hdegree hle => hover (hasDegree_minor hw hx hy hz hdegree hle) hle
    have hopposite : Within (200 * 2 + 15 + 252 * 2) (-(a.m21 * a.m33 - a.m31 * a.m23) / a.det) :=
      hover (Fits.neg (hasDegree_minor h21 h33 h31 h23 rfl (by norm_num))) (by norm_num)
    exact ⟨⟨hminor h22 h33 h32 h23 rfl (by norm_num), hminor h13 h32 h33 h12 rfl (by norm_num),
        hminor h12 h23 h22 h13 rfl (by norm_num)⟩,
      ⟨hopposite, hminor h11 h33 h31 h13 rfl (by norm_num), hminor h13 h21 h23 h11 rfl (by norm_num)⟩,
      ⟨hminor h21 h32 h31 h22 rfl (by norm_num), hminor h12 h31 h32 h11 rfl (by norm_num),
        hminor h11 h22 h21 h12 rfl (by norm_num)⟩⟩

/-- On wheels with moderate coordinates the determinant is a multiple of the square of the last
digit, so no quotient overflows. -/
theorem sharesFinite_build {offsets : Wheels (Vec2 Float)} {c : Chassis Float}
    (h : build offsets = .ok c) (hoffsets : ∀ o ∈ offsets.toList, Moderate o.x ∧ Moderate o.y) :
    c.sharesFinite = true := by
  obtain ⟨-, -, inverse, hinverse, rfl⟩ := build_eq_ok h
  obtain ⟨hfirst, hsecond, hthird⟩ := (productMatrix_normalMatrix hoffsets).inverse? hinverse
  have hrow : ∀ {v : Vec3 Float}, RowOf 0 0 v → (inverse.mulVec v).isFinite = true := by
    intro v hv
    simp only [Vec3.isFinite, Bool.and_eq_true]
    exact ⟨⟨hfirst.dot hv le_rfl, hsecond.dot hv le_rfl⟩, hthird.dot hv zero_le_one⟩
  rw [sharesFinite, List.all_eq_true]
  intro s hs
  rw [Wheels.toList_map, List.mem_map] at hs
  obtain ⟨o, ho, rfl⟩ := hs
  rw [Bool.and_eq_true]
  exact ⟨hrow (rowOf_alongRow (hoffsets o ho).2), hrow (rowOf_acrossRow (hoffsets o ho).1)⟩

/-- Four wheels in a row, so close to each other that their spread is lost to rounding. What
is left of the determinant is the square of a tiny coordinate. -/
example : (match build (α := Float) ⟨⟨3, 1e-160⟩, ⟨3.000000002, 1e-160⟩, ⟨3.000000004, 1e-160⟩,
      ⟨3.000000006, 1e-160⟩⟩ with
    | .ok c => c.sharesFinite
    | .error _ => true) = false := by decide +kernel

/-! ## Standing still -/

variable {f : MathLibrary}

/-- No elementary function takes part when a chassis is built. -/
theorem build_number (f : MathLibrary) (offsets : Wheels (Vec2 Float)) :
    build (α := f.Number) offsets = build (α := Float) offsets := rfl

theorem isZero_polar (hf : f.Regular) {r angle : f.Number} (hr : (r == 0) = true)
    (hangle : Scalar.isFinite angle = true) :
    IsZero (Vec2.polar r angle).x ∧ IsZero (Vec2.polar r angle).y := by
  have hzero : IsZero r := isZero_iff_beq.mpr hr
  exact ⟨hzero.mul_right (hf.cos angle hangle), hzero.mul_right (hf.sin angle hangle)⟩

theorem isZero_solve (c : Chassis f.Number) {w : Wheels (Vec2 f.Number)}
    (hw : ∀ v ∈ w.toList, IsZero v.x ∧ IsZero v.y) :
    ((c.solve w).x == 0 && (c.solve w).y == 0 && (c.solve w).z == 0) = c.sharesFinite := by
  have hcomponents : IsZero (c.solve w).x ∧ IsZero (c.solve w).y ∧ IsZero (c.solve w).z ↔
      c.sharesFinite = true := solve_isZero_iff hw
  rw [Bool.eq_iff_iff, Bool.and_eq_true, Bool.and_eq_true, and_assoc]
  exact (and_congr isZero_iff_beq.symm (and_congr isZero_iff_beq.symm isZero_iff_beq.symm)).trans
    hcomponents

theorem isZero_velocity (hf : f.Regular) (c : Chassis f.Number) {states : Wheels (WheelState f.Number)}
    (h : ∀ s ∈ states.toList, (s.speed == 0) = true ∧ Scalar.isFinite s.angle = true) :
    (c.velocity states).isZero = c.sharesFinite := by
  have hvelocities : ∀ v ∈ (states.map WheelState.velocity).toList, IsZero v.x ∧ IsZero v.y := by
    rw [Wheels.toList_map, List.forall_mem_map]
    exact fun s hs => isZero_polar hf (h s hs).1 (h s hs).2
  exact isZero_solve c hvelocities

theorem isZero_motion (hf : f.Regular) (c : Chassis f.Number) {travels : Wheels (WheelTravel f.Number)}
    (h : ∀ t ∈ travels.toList, (t.distance == 0) = true ∧ Scalar.isFinite t.angle = true) :
    (c.motion travels).isZero = c.sharesFinite := by
  have hpaths : ∀ v ∈ (travels.map WheelTravel.path).toList, IsZero v.x ∧ IsZero v.y := by
    rw [Wheels.toList_map, List.forall_mem_map]
    exact fun t ht => isZero_polar hf (h t ht).1 (h t ht).2
  exact isZero_solve c hpaths

/-- A chassis that could be built has finite shares if the coordinates of its wheels are zero
or of ordinary size. For wheels that do not move, whatever their angles, a chassis finds that
it does not move, from their states as from the ways they have rolled, exactly if its shares
are finite. -/
theorem standstill_build (hf : f.Regular) {offsets : Wheels (Vec2 f.Number)} {c : Chassis f.Number}
    (h : build offsets = .ok c) :
    ((∀ o ∈ offsets.toList, Moderate o.x ∧ Moderate o.y) → c.sharesFinite = true) ∧
      (∀ states : Wheels (WheelState f.Number),
        (∀ s ∈ states.toList, (s.speed == 0) = true ∧ Scalar.isFinite s.angle = true) →
        (c.velocity states).isZero = c.sharesFinite) ∧
      ∀ travels : Wheels (WheelTravel f.Number),
        (∀ t ∈ travels.toList, (t.distance == 0) = true ∧ Scalar.isFinite t.angle = true) →
        (c.motion travels).isZero = c.sharesFinite :=
  ⟨sharesFinite_build h, fun _ hstates => isZero_velocity hf c hstates,
    fun _ htravels => isZero_motion hf c htravels⟩

theorem moderate_half : Moderate 0.5 ∧ Moderate (-0.5) := by
  have hunpack : (0.5 : Float).toModel.unpack = .finite .positive (2 ^ 52) (-53) (by norm_num) := rfl
  have hfinite : (0.5 : Float).isFinite = true := rfl
  have hhalf : real 0.5 = 1 / 2 := by
    rw [real, value, hunpack, unpackedValue, EReal.toReal_coe, dyadic_positive]
    norm_num
  obtain ⟨hfinite', hreal⟩ := real_neg hfinite
  refine ⟨.ordinary hfinite ?_ ?_, .ordinary hfinite' ?_ ?_⟩
  · rw [hhalf]
    norm_num
  · rw [hhalf]
    norm_num
  · rw [hreal, hhalf]
    norm_num
  · rw [hreal, hhalf]
    norm_num

/-- A square chassis stands still with its wheels. -/
theorem standstill_build_square :
    let offsets : Wheels (Vec2 Float) := rectangle 0.5 0.5
    ∃ c : Chassis MathLibrary.tabulated.Number, build offsets = .ok c ∧ c.sharesFinite = true ∧
      (c.velocity (.replicate .rest)).isZero = true ∧ (c.motion (.replicate ⟨0, 0⟩)).isZero = true := by
  intro offsets
  have haccepted : (build offsets).isOk = true := by decide +kernel
  obtain ⟨c, hc⟩ : ∃ c, build offsets = .ok c := by
    cases hbuild : build offsets with
    | error fault =>
      rw [hbuild] at haccepted
      contradiction
    | ok c => exact ⟨c, rfl⟩
  have hbuild := (build_number MathLibrary.tabulated offsets).trans hc
  obtain ⟨hfinite, hvelocity, hmotion⟩ := standstill_build MathLibrary.regular_tabulated hbuild
  have hshares : Chassis.sharesFinite (α := MathLibrary.tabulated.Number) c = true := by
    refine hfinite (Wheels.forall_mem_toList.mpr ⟨?_, ?_, ?_, ?_⟩)
    · exact ⟨moderate_half.1, moderate_half.1⟩
    · exact ⟨moderate_half.1, moderate_half.2⟩
    · exact ⟨moderate_half.2, moderate_half.1⟩
    · exact ⟨moderate_half.2, moderate_half.2⟩
  refine ⟨c, hbuild, hshares, (hvelocity (.replicate .rest) ?_).trans hshares,
    (hmotion (.replicate ⟨0, 0⟩) ?_).trans hshares⟩
  · exact Wheels.forall_mem_toList.mpr ⟨⟨rfl, rfl⟩, ⟨rfl, rfl⟩, ⟨rfl, rfl⟩, ⟨rfl, rfl⟩⟩
  · exact Wheels.forall_mem_toList.mpr ⟨⟨rfl, rfl⟩, ⟨rfl, rfl⟩, ⟨rfl, rfl⟩, ⟨rfl, rfl⟩⟩

/-- The squares of large coordinates overflow. The determinant is NaN then, which is not
zero, so the chassis is built. -/
theorem exists_hugeOffsets :
    ∃ c : Chassis Float, build (rectangle 1e200 1e200) = .ok c ∧ c.sharesFinite = false ∧
      c.shares.frontLeft.along.x.isNaN = true := by
  have hshare : (build (rectangle (1e200 : Float) 1e200)).toOption.map (fun c =>
      (c.sharesFinite, c.shares.frontLeft.along.x.isNaN)) = some (false, true) := by decide +kernel
  cases hbuild : build (rectangle (1e200 : Float) 1e200) with
  | error fault =>
    rw [hbuild] at hshare
    contradiction
  | ok c =>
    rw [hbuild] at hshare
    obtain ⟨hfinite, hnan⟩ := Prod.mk.inj (Option.some.inj hshare)
    exact ⟨c, rfl, hfinite, hnan⟩

/-- On offsets whose squares overflow, NaN is what a chassis finds for wheels that do not
move. -/
theorem isNaN_velocity_hugeOffsets :
    ∃ c : Chassis Float, build (rectangle 1e200 1e200) = .ok c ∧ c.sharesFinite = false ∧
      (c.velocity (.replicate .rest)).vx.isNaN = true ∧
      (c.motion (.replicate ⟨0, 0⟩)).dx.isNaN = true := by
  obtain ⟨c, hbuild, hfinite, hnan⟩ := exists_hugeOffsets
  have hmotion := isNaN_motion hnan (.replicate ⟨0, 0⟩)
  exact ⟨c, hbuild, hfinite, hmotion, hmotion⟩

end Chassis

end SwerveLocalization
