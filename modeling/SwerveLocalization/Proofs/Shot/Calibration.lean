import Mathlib
import SwerveLocalization.Proofs.Binary64.Order
import SwerveLocalization.Shot.CalibrationCurve

/-!
# The points of a calibration curve

A curve that was made of points holds finite points in the order of their keys,
so at most one pair of neighbours encloses a key, and the value there is read
off the straight line between them.
-/

namespace SwerveLocalization.CalibrationCurve

open Binary64

/-! ## What an insertion puts on a curve -/

section Insertion

variable {α : Type} [Scalar α]

theorem mem_place {p r : CalibrationPoint α} {points : List (CalibrationPoint α)}
    (h : r ∈ place p points) :
    (r.key = p.key ∨ ∃ q ∈ points, r.key = q.key) ∧ (r.value = p.value ∨ r ∈ points) := by
  induction points with
  | nil =>
    rw [place, List.mem_singleton] at h
    subst h
    exact ⟨.inl rfl, .inl rfl⟩
  | cons q rest ih =>
    rw [place] at h
    split_ifs at h
    · rcases List.mem_cons.mp h with rfl | h
      · exact ⟨.inr ⟨q, List.mem_cons_self, rfl⟩, .inl rfl⟩
      · exact ⟨.inr ⟨r, List.mem_cons_of_mem _ h, rfl⟩, .inr (List.mem_cons_of_mem _ h)⟩
    · rcases List.mem_cons.mp h with rfl | h
      · exact ⟨.inl rfl, .inl rfl⟩
      · exact ⟨.inr ⟨r, h, rfl⟩, .inr h⟩
    · rcases List.mem_cons.mp h with rfl | h
      · exact ⟨.inr ⟨r, List.mem_cons_self, rfl⟩, .inr List.mem_cons_self⟩
      · obtain ⟨hkey, hvalue⟩ := ih h
        constructor
        · rcases hkey with hkey | ⟨q', hq', hkey⟩
          · exact .inl hkey
          · exact .inr ⟨q', List.mem_cons_of_mem _ hq', hkey⟩
        · rcases hvalue with hvalue | hmem
          · exact .inl hvalue
          · exact .inr (List.mem_cons_of_mem _ hmem)

theorem isFinite_place {p : CalibrationPoint α} {points : List (CalibrationPoint α)}
    (h : ∀ q ∈ points, Scalar.isFinite q.key = true ∧ Scalar.isFinite q.value = true)
    (hkey : Scalar.isFinite p.key = true) (hvalue : Scalar.isFinite p.value = true) :
    ∀ r ∈ place p points, Scalar.isFinite r.key = true ∧ Scalar.isFinite r.value = true := by
  intro r hr
  obtain ⟨hk, hv⟩ := mem_place hr
  constructor
  · rcases hk with hk | ⟨q, hq, hk⟩
    · rw [hk]
      exact hkey
    · rw [hk]
      exact (h q hq).1
  · rcases hv with hv | hmem
    · rw [hv]
      exact hvalue
    · exact (h r hmem).2

/-- A point takes its place in every order of the keys that the total order respects. -/
theorem pairwise_place {R : α → α → Prop} (htrans : ∀ {x y z}, R x y → R y z → R x z)
    {p : CalibrationPoint α} {points : List (CalibrationPoint α)}
    (hp : ∀ q ∈ points, (Scalar.totalLe q.key p.key = false → R p.key q.key) ∧
      (Scalar.totalLe p.key q.key = false → R q.key p.key))
    (h : points.Pairwise fun q r => R q.key r.key) :
    (place p points).Pairwise fun q r => R q.key r.key := by
  induction points with
  | nil => exact List.pairwise_singleton _ _
  | cons q rest ih =>
    obtain ⟨⟨hbefore, hafter⟩, hrest⟩ := List.forall_mem_cons.mp hp
    obtain ⟨hfirst, hordered⟩ := List.pairwise_cons.mp h
    rw [place]
    split_ifs with hle hge
    · exact List.pairwise_cons.mpr ⟨hfirst, hordered⟩
    · have hpq : R p.key q.key := hbefore (by simpa using hge)
      refine List.pairwise_cons.mpr ⟨List.forall_mem_cons.mpr ⟨hpq, fun r hr => ?_⟩, h⟩
      exact htrans hpq (hfirst r hr)
    · have hqp : R q.key p.key := hafter (by simpa using hle)
      refine List.pairwise_cons.mpr ⟨fun r hr => ?_, ih hrest hordered⟩
      rcases (mem_place hr).1 with hk | ⟨q', hq', hk⟩
      · rw [hk]
        exact hqp
      · rw [hk]
        exact hfirst q' hq'

/-- An insertion succeeds with finite points only. -/
theorem insert_eq_ok {c after : CalibrationCurve α} {p : CalibrationPoint α}
    (h : c.insert p = .ok after) :
    Scalar.isFinite p.key = true ∧ Scalar.isFinite p.value = true ∧ after = ⟨place p c.points⟩ := by
  unfold CalibrationCurve.insert at h
  split_ifs at h with hfinite
  rw [Bool.and_eq_true] at hfinite
  exact ⟨hfinite.1, hfinite.2, (Except.ok.inj h).symm⟩

/-- What one insertion preserves, all of them preserve. -/
theorem inserts_preserve {P : CalibrationCurve α → Prop}
    (hinsert : ∀ {c after p}, P c → c.insert p = .ok after → P after)
    {c after : CalibrationCurve α} {ps : List (CalibrationPoint α)} (h : P c)
    (hinserts : ps.foldlM CalibrationCurve.insert c = .ok after) : P after := by
  induction ps generalizing c with
  | nil =>
    obtain rfl := Except.ok.inj hinserts
    exact h
  | cons p rest ih =>
    rw [List.foldlM_cons] at hinserts
    cases hnext : c.insert p with
    | error f =>
      rw [hnext] at hinserts
      contradiction
    | ok next =>
      rw [hnext] at hinserts
      exact ih (hinsert h hnext) hinserts

end Insertion

/-- Finite points in the order of their keys. -/
structure Ascending (points : List (CalibrationPoint Float)) : Prop where
  finite : ∀ p ∈ points, p.key.isFinite = true ∧ p.value.isFinite = true
  ordered : points.Pairwise fun p q => p.key ≤ q.key

variable {p q : CalibrationPoint Float} {points rest : List (CalibrationPoint Float)} {x : Float}

theorem Ascending.place (h : Ascending points) (hkey : p.key.isFinite = true)
    (hvalue : p.value.isFinite = true) : Ascending (place p points) := by
  have hnan := ((isFinite_iff p.key).mp hkey).1
  refine ⟨isFinite_place h.finite hkey hvalue, ?_⟩
  refine pairwise_place (R := (· ≤ ·)) RealScalar.le_trans ?_ h.ordered
  intro q hq
  have hqnan := ((isFinite_iff q.key).mp (h.finite q hq).1).1
  have htotal : Scalar.totalLe p.key q.key = true ∨ Scalar.totalLe q.key p.key = true := by
    rw [← Bool.or_eq_true]
    exact totalLe_total p.key q.key
  constructor
  · intro hnot
    exact le_of_totalLe hnan hqnan (htotal.resolve_right (by simp [hnot]))
  · intro hnot
    exact le_of_totalLe hqnan hnan (htotal.resolve_left (by simp [hnot]))

theorem ascending_empty : Ascending (empty : CalibrationCurve Float).points := by
  constructor
  · intro p hp
    contradiction
  · exact List.Pairwise.nil

theorem Ascending.insert {c after : CalibrationCurve Float} (h : Ascending c.points)
    (hinsert : c.insert p = .ok after) : Ascending after.points := by
  obtain ⟨hkey, hvalue, rfl⟩ := insert_eq_ok hinsert
  exact h.place hkey hvalue

/-- Every curve that was made of points has finite points in order. -/
theorem Ascending.inserts {c after : CalibrationCurve Float} (h : Ascending c.points)
    {ps : List (CalibrationPoint Float)} (hinserts : ps.foldlM CalibrationCurve.insert c = .ok after) :
    Ascending after.points :=
  inserts_preserve (P := fun c => Ascending c.points) Ascending.insert h hinserts

/-! ## Enclosing neighbours -/

/-- Two neighbours of a curve that have a key between them. -/
structure Encloses (points : List (CalibrationPoint Float)) (x : Float)
    (p q : CalibrationPoint Float) : Prop where
  neighbours : ∃ front rest, points = front ++ p :: q :: rest
  after : p.key < x
  before : x < q.key

theorem Encloses.cons (h : Encloses rest x p q) (r : CalibrationPoint Float) :
    Encloses (r :: rest) x p q := by
  obtain ⟨⟨front, tail, rfl⟩, hafter, hbefore⟩ := h
  exact ⟨⟨r :: front, tail, rfl⟩, hafter, hbefore⟩

theorem Ascending.tail (h : Ascending (p :: rest)) : Ascending rest :=
  ⟨fun r hr => h.finite r (List.mem_cons_of_mem _ hr), (List.pairwise_cons.mp h.ordered).2⟩

/-- Between two neighbours the curve is straight. -/
theorem walk_of_encloses {first : CalibrationPoint Float} (h : Ascending (first :: rest))
    (hpq : Encloses (first :: rest) x p q) :
    walk x first rest = lerp p.value q.value (inverseLerp p.key q.key x) := by
  obtain ⟨⟨front, tail, hpoints⟩, hafter, hbefore⟩ := hpq
  induction front generalizing first rest with
  | nil =>
    obtain ⟨rfl, rfl⟩ := List.cons.inj hpoints
    have hnot : ¬ q.key ≤ x := RealScalar.not_le_of_lt hbefore
    have hne := ((lt_iff_le_and_not_beq _ _).mp hafter).2
    rw [walk, if_neg hnot, if_neg hne]
  | cons r front ih =>
    have hrest : rest = front ++ p :: q :: tail := (List.cons.inj hpoints).2
    cases rest with
    | nil => simp at hrest
    | cons next rest =>
      have hp : p ∈ next :: rest := by
        rw [hrest]
        simp
      have hnext : next.key ≤ x := by
        rcases List.mem_cons.mp hp with rfl | hp
        · exact RealScalar.le_of_lt hafter
        · have hle := (List.pairwise_cons.mp h.tail.ordered).1 p hp
          exact RealScalar.le_trans hle (RealScalar.le_of_lt hafter)
      rw [walk, if_pos hnext]
      exact ih h.tail hrest

/-- Where no neighbours enclose a key, the curve has the value of a point. -/
theorem walk_of_not_encloses {first : CalibrationPoint Float} (hascending : Ascending (first :: rest))
    (hfirst : first.key ≤ x) (h : ∀ p q, ¬ Encloses (first :: rest) x p q) :
    ∃ r ∈ first :: rest, walk x first rest = r.value := by
  induction rest generalizing first with
  | nil => exact ⟨first, List.mem_cons_self, rfl⟩
  | cons next rest ih =>
    rw [walk]
    split_ifs with hnext heq
    · obtain ⟨r, hr, hvalue⟩ := ih hascending.tail hnext fun p q hpq => h p q (hpq.cons first)
      exact ⟨r, List.mem_cons_of_mem _ hr, hvalue⟩
    · exact ⟨first, List.mem_cons_self, rfl⟩
    · obtain ⟨-, hxnan, -⟩ := (le_iff _ _).mp hfirst
      have hnextnan := ((isFinite_iff _).mp (hascending.finite next (by simp)).1).1
      refine absurd ⟨⟨[], rest, rfl⟩, ?_, ?_⟩ (h first next)
      · exact (lt_iff_le_and_not_beq _ _).mpr ⟨hfirst, heq⟩
      · exact (RealScalar.not_le hxnan hnextnan).mp hnext

/-- The curve has a value at every key that two neighbours enclose: the one on the
line between them. -/
theorem get?_of_encloses {c : CalibrationCurve Float} (h : Ascending c.points)
    (hpq : Encloses c.points x p q) :
    c.get? x = some (lerp p.value q.value (inverseLerp p.key q.key x)) := by
  unfold get?
  cases hpoints : c.points with
  | nil =>
    obtain ⟨⟨front, rest, hsplit⟩, -, -⟩ := hpq
    simp [hpoints] at hsplit
  | cons first rest =>
    rw [hpoints] at h hpq
    have hnan : ¬ Scalar.isNaN x = true := by
      intro hnan
      exact absurd hnan (by simpa using ((RealScalar.lt_iff _ _).mp hpq.after).2.1)
    have hp : p ∈ first :: rest := by
      obtain ⟨⟨front, tail, hsplit⟩, -, -⟩ := hpq
      rw [hsplit]
      simp
    have hfirst : ¬ x ≤ first.key := by
      rcases List.mem_cons.mp hp with rfl | hp
      · exact RealScalar.not_le_of_lt hpq.after
      · intro hle
        have hle' := RealScalar.le_trans hle ((List.pairwise_cons.mp h.ordered).1 p hp)
        exact RealScalar.not_le_of_lt hpq.after hle'
    dsimp only
    rw [if_neg hnan, if_neg hfirst, walk_of_encloses h hpq]

theorem get?_of_not_encloses {c : CalibrationCurve Float} {v : Float} (h : Ascending c.points)
    (hnot : ∀ p q, ¬ Encloses c.points x p q) (hv : c.get? x = some v) :
    ∃ r ∈ c.points, r.value = v := by
  unfold get? at hv
  cases hpoints : c.points with
  | nil =>
    rw [hpoints] at hv
    contradiction
  | cons first rest =>
    rw [hpoints] at h hnot hv
    dsimp only at hv
    split_ifs at hv with hnan hbefore
    · exact ⟨first, List.mem_cons_self, Option.some.inj hv⟩
    · have hfirstnan := ((isFinite_iff _).mp (h.finite first List.mem_cons_self).1).1
      have hafter := (RealScalar.not_le hfirstnan (by simpa using hnan)).mp hbefore
      obtain ⟨r, hr, hvalue⟩ := walk_of_not_encloses h (RealScalar.le_of_lt hafter) hnot
      exact ⟨r, hr, hvalue.symm.trans (Option.some.inj hv)⟩

end SwerveLocalization.CalibrationCurve
