import Mathlib
import SwerveLocalization.Proofs.Shot.Calibration

/-!
# Replacing a point of a calibration curve

A point is put where its key stands in the total order, and there the two zeros
are two keys. A lookup compares keys by their values, and there the zeros are
one. So a curve may have a point at each zero, of which a lookup at zero reads
only one: the first of them on a curve that starts there, and the last of them
on any other. At all other keys a lookup reads the point that was put there
last.
-/

namespace SwerveLocalization.CalibrationCurve

open Binary64

/-- Points whose keys stand in the total order one after the other. -/
def Strict (points : List (CalibrationPoint Float)) : Prop :=
  points.Pairwise fun p q => rank p.key < rank q.key

variable {p q r s : CalibrationPoint Float} {points rest : List (CalibrationPoint Float)} {x : Float}

/-! ## The points after an insertion -/

theorem place_before (h : rank p.key < rank q.key) : place p (q :: rest) = p :: q :: rest := by
  have hpq : Scalar.totalLe p.key q.key = true := totalLe_iff.mpr h.le
  have hqp : ¬ Scalar.totalLe q.key p.key = true := fun hle => absurd (totalLe_iff.mp hle) h.not_ge
  rw [place, if_pos hpq, if_neg hqp]

theorem place_same (h : rank p.key = rank q.key) : place p (q :: rest) = p :: rest := by
  have hpq : Scalar.totalLe p.key q.key = true := totalLe_iff.mpr h.le
  have hqp : Scalar.totalLe q.key p.key = true := totalLe_iff.mpr h.ge
  rw [place, if_pos hpq, if_pos hqp, ← eq_of_rank_eq h]

theorem place_after (h : rank q.key < rank p.key) : place p (q :: rest) = q :: place p rest := by
  have hpq : ¬ Scalar.totalLe p.key q.key = true := fun hle => absurd (totalLe_iff.mp hle) h.not_ge
  rw [place, if_neg hpq]

/-- The new point comes between the points before its key and those after it. -/
theorem Strict.place_eq (h : Strict points) (p : CalibrationPoint Float) :
    place p points = points.filter (fun q => rank q.key < rank p.key)
      ++ p :: points.filter (fun q => rank p.key < rank q.key) := by
  induction points with
  | nil => rfl
  | cons q rest ih =>
    obtain ⟨hfirst, hrest⟩ := List.pairwise_cons.mp h
    by_cases hgt : rank q.key < rank p.key
    · rw [place_after hgt, List.filter_cons_of_pos (by simpa using hgt),
        List.filter_cons_of_neg (by simpa using hgt.le), ih hrest, List.cons_append]
    · have hrest' : ∀ r ∈ rest, rank p.key < rank r.key := by
        intro r hr
        have hqr := hfirst r hr
        omega
      have hnone : (q :: rest).filter (fun r => rank r.key < rank p.key) = [] := by
        simp only [List.filter_eq_nil_iff, List.forall_mem_cons, decide_eq_true_eq]
        exact ⟨hgt, fun r hr => (hrest' r hr).not_gt⟩
      have hall : rest.filter (fun r => rank p.key < rank r.key) = rest := by
        simpa only [List.filter_eq_self, decide_eq_true_eq] using hrest'
      rw [hnone, List.nil_append]
      rcases (not_lt.mp hgt).lt_or_eq with hlt | heq
      · rw [place_before hlt, List.filter_cons_of_pos (by simpa using hlt), hall]
      · rw [place_same heq, List.filter_cons_of_neg (by simp [heq]), hall]

/-- The points at other keys stay. -/
theorem Strict.mem_place_iff (h : Strict points) :
    r ∈ place p points ↔ r = p ∨ r ∈ points ∧ r.key ≠ p.key := by
  rw [h.place_eq p, ← rank_ne_iff, ne_iff_lt_or_gt]
  simp only [List.mem_append, List.mem_cons, List.mem_filter, decide_eq_true_eq]
  tauto

theorem Strict.place (h : Strict points) (p : CalibrationPoint Float) :
    Strict (place p points) := by
  rw [h.place_eq p]
  refine List.pairwise_append.mpr ⟨List.Pairwise.filter _ h, ?_, ?_⟩
  · refine List.pairwise_cons.mpr ⟨?_, List.Pairwise.filter _ h⟩
    intro r hr
    simpa using (List.mem_filter.mp hr).2
  · intro q hq r hr
    have hqp : rank q.key < rank p.key := by simpa using (List.mem_filter.mp hq).2
    rcases List.mem_cons.mp hr with rfl | hr
    · exact hqp
    · have hpr : rank p.key < rank r.key := by simpa using (List.mem_filter.mp hr).2
      exact hqp.trans hpr

/-- There is one point more if there was none at the key. -/
theorem Strict.length_place (h : Strict points) :
    (CalibrationCurve.place p points).length
      = if ∀ q ∈ points, q.key ≠ p.key then points.length + 1 else points.length := by
  induction points with
  | nil => simp [CalibrationCurve.place]
  | cons q rest ih =>
    obtain ⟨hfirst, hrest⟩ := List.pairwise_cons.mp h
    simp only [← rank_ne_iff, List.forall_mem_cons] at ih ⊢
    rcases lt_trichotomy (rank p.key) (rank q.key) with hlt | heq | hgt
    · have hnew : ∀ r ∈ rest, rank r.key ≠ rank p.key := by
        intro r hr
        have hqr := hfirst r hr
        omega
      rw [place_before hlt, if_pos ⟨hlt.ne', hnew⟩]
      rfl
    · rw [place_same heq, if_neg (by simp [heq])]
      rfl
    · rw [place_after hgt, List.length_cons, ih hrest]
      simp only [hgt.ne, ne_eq, not_false_eq_true, true_and, List.length_cons]
      split_ifs <;> rfl

/-- There is one point at a key. -/
theorem Strict.eq_of_key_eq (h : Strict points) (hq : q ∈ points) (hr : r ∈ points)
    (hkey : q.key = r.key) : q = r := by
  have hnodup : (points.map (·.key)).Nodup :=
    List.pairwise_map.mpr (h.imp fun hlt heq => hlt.ne (congrArg rank heq))
  exact List.inj_on_of_nodup_map hnodup hq hr hkey

theorem strict_empty : Strict (empty : CalibrationCurve Float).points := List.Pairwise.nil

theorem Strict.insert {c after : CalibrationCurve Float} (h : Strict c.points)
    (hinsert : c.insert p = .ok after) : Strict after.points := by
  obtain ⟨-, -, rfl⟩ := insert_eq_ok hinsert
  exact h.place p

/-- Every curve that was made of points has one point at a key. -/
theorem Strict.inserts {c after : CalibrationCurve Float} (h : Strict c.points)
    {ps : List (CalibrationPoint Float)} (hinserts : ps.foldlM CalibrationCurve.insert c = .ok after) :
    Strict after.points :=
  inserts_preserve (P := fun c => Strict c.points) Strict.insert h hinserts

/-! ## The point that a lookup reads -/

/-- The point that a lookup reads at a key, of those whose keys are equal to it:
the first if the curve starts with them, and the last otherwise. -/
structure Reads (points : List (CalibrationPoint Float)) (x : Float) (q : CalibrationPoint Float) :
    Prop where
  mem : q ∈ points
  same : (q.key == x) = true
  first : (∀ r ∈ points, x ≤ r.key) → ∀ r ∈ points, (r.key == x) = true → rank q.key ≤ rank r.key
  last : (¬ ∀ r ∈ points, x ≤ r.key) → ∀ r ∈ points, (r.key == x) = true → rank r.key ≤ rank q.key

theorem exists_reads (hq : q ∈ points) (hsame : (q.key == x) = true) : ∃ r, Reads points x r := by
  have hfinite : {r | r ∈ points ∧ (r.key == x) = true}.Finite :=
    points.finite_toSet.subset fun r hr => hr.1
  have hnonempty : {r | r ∈ points ∧ (r.key == x) = true}.Nonempty := ⟨q, hq, hsame⟩
  by_cases hstart : ∀ r ∈ points, x ≤ r.key
  · obtain ⟨r, hr, hfirst⟩ := Set.exists_min_image _ (fun r => rank r.key) hfinite hnonempty
    exact ⟨r, hr.1, hr.2, fun _ s hs hsx => hfirst s ⟨hs, hsx⟩, fun h => absurd hstart h⟩
  · obtain ⟨r, hr, hlast⟩ := Set.exists_max_image _ (fun r => rank r.key) hfinite hnonempty
    exact ⟨r, hr.1, hr.2, fun h => absurd h hstart, fun _ s hs hsx => hlast s ⟨hs, hsx⟩⟩

/-- From a point on that is not after the key, the last of the points at the key is read. -/
theorem walk_of_last {first : CalibrationPoint Float} (h : Ascending (first :: rest))
    (hstrict : Strict (first :: rest)) (hfirst : first.key ≤ x) (hq : q ∈ first :: rest)
    (hsame : (q.key == x) = true)
    (hlast : ∀ r ∈ first :: rest, (r.key == x) = true → rank r.key ≤ rank q.key) :
    walk x first rest = q.value := by
  obtain ⟨hqx, hxq⟩ := (beq_iff_le_and_le _ _).mp hsame
  induction rest generalizing first with
  | nil =>
    obtain rfl := List.mem_singleton.mp hq
    rfl
  | cons next rest ih =>
    have hnextfirst := (List.pairwise_cons.mp h.ordered).1 next List.mem_cons_self
    have hafter := (List.pairwise_cons.mp hstrict).1
    rw [walk]
    by_cases hnext : next.key ≤ x
    · rw [if_pos hnext]
      refine ih h.tail (List.pairwise_cons.mp hstrict).2 hnext ?_ fun r hr =>
        hlast r (List.mem_cons_of_mem _ hr)
      -- `q` is not the first point, as the next one would be at the key too
      rcases List.mem_cons.mp hq with rfl | hq
      · have hnextsame : (next.key == x) = true :=
          (beq_iff_le_and_le _ _).mpr ⟨hnext, RealScalar.le_trans hxq hnextfirst⟩
        have hle := hlast next (by simp) hnextsame
        exact absurd (hafter next List.mem_cons_self) hle.not_gt
      · exact hq
    · rw [if_neg hnext]
      rcases List.mem_cons.mp hq with rfl | hq
      · rw [if_pos ((beq_iff_le_and_le _ _).mpr ⟨hxq, hqx⟩)]
      · rcases List.mem_cons.mp hq with rfl | hq
        · contradiction
        · have hle := (List.pairwise_cons.mp h.tail.ordered).1 q hq
          exact absurd (RealScalar.le_trans hle hqx) hnext

/-- A lookup at the key of a point has the value of the point that it reads. -/
theorem Reads.get?_eq {c : CalibrationCurve Float} (hread : Reads c.points x q)
    (h : Ascending c.points) (hstrict : Strict c.points) : c.get? x = some q.value := by
  obtain ⟨hq, hsame, hleast, hlast⟩ := hread
  obtain ⟨hqx, hxq⟩ := (beq_iff_le_and_le _ _).mp hsame
  have hnan : ¬ Scalar.isNaN x = true := Bool.not_eq_true _ |>.mpr ((le_iff _ _).mp hxq).1
  unfold get?
  cases hpoints : c.points with
  | nil =>
    rw [hpoints] at hq
    contradiction
  | cons first rest =>
    rw [hpoints] at h hstrict hq hleast hlast
    have hordered := (List.pairwise_cons.mp h.ordered).1
    have hafter := (List.pairwise_cons.mp hstrict).1
    dsimp only
    rw [if_neg hnan]
    by_cases hbefore : x ≤ first.key
    · rw [if_pos hbefore]
      have hstart : ∀ r ∈ first :: rest, x ≤ r.key := by
        refine List.forall_mem_cons.mpr ⟨hbefore, fun r hr => ?_⟩
        exact RealScalar.le_trans hbefore (hordered r hr)
      rcases List.mem_cons.mp hq with rfl | hq
      · rfl
      · have hfirstsame : (first.key == x) = true :=
          (beq_iff_le_and_le _ _).mpr ⟨RealScalar.le_trans (hordered q hq) hqx, hbefore⟩
        exact absurd (hafter q hq) (hleast hstart first List.mem_cons_self hfirstsame).not_gt
    · rw [if_neg hbefore]
      have hnot : ¬ ∀ r ∈ first :: rest, x ≤ r.key := fun hstart =>
        hbefore (hstart first List.mem_cons_self)
      have hfirst : first.key ≤ x := by
        rcases List.mem_cons.mp hq with rfl | hq
        · exact hqx
        · exact RealScalar.le_trans (hordered q hq) hqx
      rw [walk_of_last h hstrict hfirst hq hsame (hlast hnot)]

/-! ## What an insertion changes for a lookup -/

/-- A point at the other zero that a lookup reads instead of the new point `p`:
the one before `p` on a curve that starts there, and the one after `p` on any
other. -/
structure Hides (points : List (CalibrationPoint Float)) (q p : CalibrationPoint Float) : Prop where
  same : (q.key == p.key) = true
  other : q.key ≠ p.key
  value_ne : q.value ≠ p.value
  read : rank q.key < rank p.key ↔ ∀ r ∈ points, p.key ≤ r.key

/-- A curve starts with different values at both zeros, and the new point `p`
comes before them: a lookup there has read the first of them, and with `p` it
reads the last. -/
structure Uncovers (points : List (CalibrationPoint Float)) (p : CalibrationPoint Float) (x : Float) :
    Prop where
  start : ∀ r ∈ points, x ≤ r.key
  before : p.key < x
  both : ∃ a ∈ points, ∃ b ∈ points, (a.key == x) = true ∧ (b.key == x) = true ∧ a.value ≠ b.value

/-- Only a zero is uncovered. -/
theorem Uncovers.zero (hu : Uncovers points p x) (h : Strict points) : (x == 0.0) = true := by
  obtain ⟨a, ha, b, hb, hax, hbx, hvalue⟩ := hu.both
  have hne : a.key ≠ b.key := by
    intro hkey
    rw [h.eq_of_key_eq ha hb hkey] at hvalue
    exact hvalue rfl
  rw [beq_iff] at hax hbx
  have hab : (a.key == b.key) = true :=
    (beq_iff _ _).mpr ⟨hax.1, hbx.1, hax.2.2.trans hbx.2.2.symm⟩
  rw [beq_iff]
  rcases eq_zeros_of_beq hab hne with ⟨-, hzero⟩ | ⟨hzero, -⟩
  · rw [hzero] at hbx
    exact ⟨hbx.2.1, hbx.1, hbx.2.2.symm⟩
  · rw [hzero] at hax
    exact ⟨hax.2.1, hax.1, hax.2.2.symm⟩

theorem Strict.forall_le_place (h : Strict points) :
    (∀ r ∈ CalibrationCurve.place p points, x ≤ r.key) ↔ (∀ r ∈ points, x ≤ r.key) ∧ x ≤ p.key := by
  constructor
  · intro hall
    have hp : x ≤ p.key := hall p (h.mem_place_iff.mpr (.inl rfl))
    refine ⟨fun r hr => ?_, hp⟩
    by_cases hkey : r.key = p.key
    · rw [hkey]
      exact hp
    · exact hall r (h.mem_place_iff.mpr (.inr ⟨hr, hkey⟩))
  · rintro ⟨hall, hp⟩ r hr
    rcases h.mem_place_iff.mp hr with rfl | ⟨hr, -⟩
    · exact hp
    · exact hall r hr

/-- A lookup at the new key reads the new value unless another point hides it. -/
theorem Reads.place_self (hread : Reads (place p points) p.key q) (h : Strict points)
    (hkey : p.key.isFinite = true) : q.value = p.value ↔ ∀ r ∈ points, ¬ Hides points r p := by
  obtain ⟨hmem, hsame, hfirst, hlast⟩ := hread
  have hstart : (∀ r ∈ CalibrationCurve.place p points, p.key ≤ r.key) ↔ ∀ r ∈ points, p.key ≤ r.key :=
    h.forall_le_place.trans (and_iff_left (RealScalar.le_refl hkey))
  rw [hstart] at hfirst hlast
  have hp : p ∈ CalibrationCurve.place p points := h.mem_place_iff.mpr (.inl rfl)
  have hpsame : (p.key == p.key) = true := GradualScalar.beq_self hkey
  rcases h.mem_place_iff.mp hmem with rfl | ⟨hq, hne⟩
  · refine iff_of_true rfl ?_
    rintro r hr ⟨hrsame, hrne, -, hread⟩
    have hr' := h.mem_place_iff.mpr (.inr ⟨hr, hrne⟩)
    have hrank := rank_ne_iff.mpr hrne
    by_cases hs : ∀ r ∈ points, q.key ≤ r.key
    · have hle := hfirst hs r hr' hrsame
      exact hle.not_gt (hread.mpr hs)
    · have hle := hlast hs r hr' hrsame
      exact hs (hread.mp (lt_of_le_of_ne hle hrank))
  · have hrank := rank_ne_iff.mpr hne
    constructor
    · rintro hvalue r hr ⟨hrsame, hrne, hrvalue, -⟩
      -- only one point besides `p` is at this number
      rcases eq_or_eq_or_eq_of_beq hrsame hsame hpsame with hrq | hrp | hqp
      · rw [h.eq_of_key_eq hr hq hrq] at hrvalue
        exact hrvalue hvalue
      · exact hrne hrp
      · exact hne hqp
    · intro hnone
      by_contra hvalue
      refine hnone q hq ⟨hsame, hne, hvalue, ?_⟩
      by_cases hs : ∀ r ∈ points, p.key ≤ r.key
      · exact iff_of_true (lt_of_le_of_ne (hfirst hs p hp hpsame) hrank) hs
      · exact iff_of_false (hlast hs p hp hpsame).not_gt hs

theorem Strict.mem_place_iff_of_beq (h : Strict points) (hr : (r.key == x) = true)
    (hp : ¬ (p.key == x) = true) : r ∈ CalibrationCurve.place p points ↔ r ∈ points := by
  have hne : r.key ≠ p.key := fun hkey => hp (hkey ▸ hr)
  rw [h.mem_place_iff, and_iff_left hne]
  exact or_iff_right fun heq => hne (congrArg CalibrationPoint.key heq)

/-- Of points that are equal in key none lies between two others. -/
theorem Strict.eq_or_eq_of_between (h : Strict points) (hq : q ∈ points) (hs : s ∈ points)
    (hr : r ∈ points) (hqx : (q.key == x) = true) (hsx : (s.key == x) = true)
    (hrx : (r.key == x) = true) (hqs : rank q.key ≤ rank s.key) (hsr : rank s.key ≤ rank r.key) :
    s = q ∨ s = r := by
  rcases eq_or_eq_or_eq_of_beq hsx hqx hrx with hsq | hsr' | hqr
  · exact .inl (h.eq_of_key_eq hs hq hsq)
  · exact .inr (h.eq_of_key_eq hs hr hsr')
  · rw [← hqr] at hsr
    exact .inl (h.eq_of_key_eq hs hq (eq_of_rank_eq (le_antisymm hsr hqs)))

/-- A lookup at another key has the same value as before, unless the new point
uncovers the second zero. -/
theorem Reads.place_other (hread : Reads points x q) (hread' : Reads (place p points) x r)
    (h : Strict points) (hkey : p.key.isFinite = true) (hp : ¬ (p.key == x) = true) :
    r.value = q.value ↔ ¬ Uncovers points p x := by
  obtain ⟨hq, hqx, hfirst, hlast⟩ := hread
  obtain ⟨hr, hrx, hfirst', hlast'⟩ := hread'
  rw [h.mem_place_iff_of_beq hrx hp] at hr
  rw [h.forall_le_place] at hfirst' hlast'
  by_cases hsame : (∀ s ∈ points, x ≤ s.key) → x ≤ p.key
  · -- the curve starts at this number after the insertion if it did before
    have hkeys : rank r.key = rank q.key := by
      have hr' := (h.mem_place_iff_of_beq hrx hp).mpr hr
      have hq' := (h.mem_place_iff_of_beq hqx hp).mpr hq
      by_cases hs : ∀ s ∈ points, x ≤ s.key
      · exact le_antisymm (hfirst' ⟨hs, hsame hs⟩ q hq' hqx) (hfirst hs r hr hrx)
      · exact le_antisymm (hlast hs r hr hrx) (hlast' (fun hboth => hs hboth.1) q hq' hqx)
    rw [h.eq_of_key_eq hr hq (eq_of_rank_eq hkeys)]
    refine iff_of_true rfl ?_
    rintro ⟨hs, hbefore, -⟩
    exact RealScalar.not_le_of_lt hbefore (hsame hs)
  · -- the curve has started there, so the first point was read, and now the last one is
    obtain ⟨hs, hnot⟩ := Classical.not_imp.mp hsame
    have hxnan := ((beq_iff _ _).mp hqx).2.1
    have hbefore : p.key < x := (RealScalar.not_le (RealScalar.isNaN_of_isFinite hkey) hxnan).mp hnot
    constructor
    · rintro hvalue ⟨-, -, a, ha, b, hb, hax, hbx, hne⟩
      have hall : ∀ s ∈ points, (s.key == x) = true → s.value = q.value := by
        intro s hsmem hsx
        have hplaced := (h.mem_place_iff_of_beq hsx hp).mpr hsmem
        have hleft := hfirst hs s hsmem hsx
        have hright := hlast' (fun hboth => hnot hboth.2) s hplaced hsx
        rcases h.eq_or_eq_of_between hq hsmem hr hqx hsx hrx hleft hright with rfl | rfl
        · rfl
        · exact hvalue
      exact hne ((hall a ha hax).trans (hall b hb hbx).symm)
    · intro hnone
      by_contra hvalue
      exact hnone ⟨hs, hbefore, q, hq, r, hr, hqx, hrx, Ne.symm hvalue⟩

variable {ps qs : List (CalibrationPoint Float)} {start c : CalibrationCurve Float}

/-- After an insertion into a curve that was made of points there is one point
more exactly if none was at the key, the two zeros being different keys. A
lookup at the key has the new value exactly if no point at the other zero hides
it. At a stored key of another value a lookup has the value that it had before,
exactly if the new point does not uncover the second zero there. -/
theorem insert_lookup (hpoints : ofPoints ps = .ok start)
    (hinserts : qs.foldlM CalibrationCurve.insert start = .ok c) (hkey : p.key.isFinite = true)
    (hvalue : p.value.isFinite = true) :
    ∃ after, c.insert p = .ok after ∧
      after.points.length
        = (if ∀ q ∈ c.points, q.key ≠ p.key then c.points.length + 1 else c.points.length) ∧
      (after.get? p.key = some p.value ↔ ∀ q ∈ c.points, ¬ Hides c.points q p) ∧
      ∀ q ∈ c.points, ¬ (q.key == p.key) = true →
        (after.get? q.key = c.get? q.key ↔ ¬ Uncovers c.points p q.key) := by
  have hstrict : Strict c.points := (strict_empty.inserts hpoints).inserts hinserts
  have hascending : Ascending c.points := (ascending_empty.inserts hpoints).inserts hinserts
  have hinsert : c.insert p = .ok ⟨place p c.points⟩ := if_pos (by
    rw [Bool.and_eq_true]
    exact ⟨hkey, hvalue⟩)
  refine ⟨_, hinsert, hstrict.length_place, ?_, ?_⟩
  · have hp : p ∈ place p c.points := hstrict.mem_place_iff.mpr (.inl rfl)
    obtain ⟨r, hread⟩ := exists_reads hp (GradualScalar.beq_self hkey)
    rw [hread.get?_eq (hascending.insert hinsert) (hstrict.insert hinsert), Option.some.injEq]
    exact hread.place_self hstrict hkey
  · intro q hq hne
    have hsame : (q.key == q.key) = true := GradualScalar.beq_self (hascending.finite q hq).1
    have hp : ¬ (p.key == q.key) = true := by
      rw [beq_iff_le_and_le] at hne ⊢
      exact fun h => hne h.symm
    obtain ⟨r, hread⟩ := exists_reads hq hsame
    obtain ⟨r', hread'⟩ := exists_reads ((hstrict.mem_place_iff_of_beq hsame hp).mpr hq) hsame
    rw [hread.get?_eq hascending hstrict,
      hread'.get?_eq (hascending.insert hinsert) (hstrict.insert hinsert), Option.some.injEq]
    exact hread.place_other hread' hstrict hkey hp

/-- A curve that starts with both zeros. -/
def bothZeros : CalibrationCurve Float := ⟨[⟨-0.0, 1.0⟩, ⟨0.0, 2.0⟩, ⟨3.0, 4.0⟩]⟩

theorem insert_lookup_bothZeros :
    ∃ after, bothZeros.insert ⟨-1.0, 5.0⟩ = .ok after ∧ after.points.length = 4 ∧
      after.get? (-1.0) = some 5.0 ∧ after.get? 3.0 = bothZeros.get? 3.0 ∧
      after.get? 0.0 ≠ bothZeros.get? 0.0 := by
  have hpoints : ofPoints [⟨0.0, 2.0⟩, ⟨3.0, 4.0⟩]
      = .ok (⟨[⟨0.0, 2.0⟩, ⟨3.0, 4.0⟩]⟩ : CalibrationCurve Float) := by decide +kernel
  have hinserts : [⟨-0.0, 1.0⟩].foldlM CalibrationCurve.insert
      (⟨[⟨0.0, 2.0⟩, ⟨3.0, 4.0⟩]⟩ : CalibrationCurve Float) = .ok bothZeros := by decide +kernel
  obtain ⟨after, hinsert, hlength, hself, hother⟩ := insert_lookup (p := ⟨-1.0, 5.0⟩) hpoints
    hinserts (by decide +kernel) (by decide +kernel)
  refine ⟨after, hinsert, ?_, hself.mpr ?_, ?_, ?_⟩
  · rw [hlength, if_pos (by decide +kernel)]
    rfl
  · rintro q hq ⟨hsame, -, -, -⟩
    revert q
    decide +kernel
  · refine (hother ⟨3.0, 4.0⟩ (by decide +kernel) (by decide +kernel)).mpr ?_
    rintro ⟨hstart, -, -⟩
    revert hstart
    decide +kernel
  · refine fun heq => (hother ⟨0.0, 2.0⟩ (by decide +kernel) (by decide +kernel)).mp heq ?_
    exact ⟨by decide +kernel, by decide +kernel, by decide +kernel⟩

/-- Zero is put beside the other zero, where it is not found; and a point before
both changes what is found at zero. -/
theorem insert_hidden_at_zero :
    ofPoints [⟨-0.0, 1.0⟩] = .ok (⟨[⟨-0.0, 1.0⟩]⟩ : CalibrationCurve Float) ∧
      ((-0.0 : Float) == 0.0) = true ∧
      insert ⟨[⟨-0.0, 1.0⟩]⟩ ⟨(0.0 : Float), 2.0⟩ = .ok ⟨[⟨-0.0, 1.0⟩, ⟨0.0, 2.0⟩]⟩ ∧
      get? ⟨[⟨-0.0, 1.0⟩, ⟨0.0, 2.0⟩]⟩ (0.0 : Float) ≠ some 2.0 ∧
      insert ⟨[⟨-0.0, 1.0⟩, ⟨0.0, 2.0⟩]⟩ ⟨(-1.0 : Float), 5.0⟩
        = .ok ⟨[⟨-1.0, 5.0⟩, ⟨-0.0, 1.0⟩, ⟨0.0, 2.0⟩]⟩ ∧
      get? ⟨[⟨-1.0, 5.0⟩, ⟨-0.0, 1.0⟩, ⟨0.0, 2.0⟩]⟩ (0.0 : Float)
        ≠ get? ⟨[⟨-0.0, 1.0⟩, ⟨0.0, 2.0⟩]⟩ 0.0 := by
  decide +kernel

end SwerveLocalization.CalibrationCurve
