import Mathlib

/-!
# Sorting that keeps ties as they came

Samples are put in order by a sort that leaves samples of one time in their
order of arrival. Such a sort is determined by what it does: its result is in
order, and on every class of ties it changes nothing. So leaving samples out
before or after the sort comes to the same, rearranging samples that are not
tied comes to nothing, and of two parts that follow each other each can be
sorted on its own.
-/

namespace SwerveLocalization.StableSort

variable {β : Type} {le : β → β → Bool}

/-- Elements between which an order does not decide. -/
def tied (le : β → β → Bool) (a b : β) : Bool := le a b && le b a

theorem tied_iff {a b : β} : tied le a b = true ↔ le a b = true ∧ le b a = true := by
  rw [tied, Bool.and_eq_true]

theorem mergeSort_pair (a b : β) :
    [a, b].mergeSort le = if le a b then [a, b] else [b, a] := by
  rw [List.mergeSort]
  simp [List.MergeSort.Internal.splitInTwo, List.merge]

theorem tied_of_tied (trans : ∀ a b c, le a b = true → le b c = true → le a c = true) {a x y : β}
    (hx : tied le a x = true) (hy : tied le a y = true) : tied le x y = true := by
  obtain ⟨hax, hxa⟩ := tied_iff.mp hx
  obtain ⟨hay, hya⟩ := tied_iff.mp hy
  exact tied_iff.mpr ⟨trans x a y hxa hay, trans y a x hya hax⟩

/-! ## Rearranging without disturbing ties -/

/-- The same elements in another order, where elements that are tied keep theirs. -/
structure Rearranged (le : β → β → Bool) (l l' : List β) : Prop where
  perm : l.Perm l'
  ties : ∀ a, l.filter (tied le a) = l'.filter (tied le a)

namespace Rearranged

theorem refl (l : List β) : Rearranged le l l := ⟨.refl l, fun _ => rfl⟩

protected theorem trans {l m n : List β} (hlm : Rearranged le l m) (hmn : Rearranged le m n) :
    Rearranged le l n :=
  ⟨hlm.perm.trans hmn.perm, fun a => (hlm.ties a).trans (hmn.ties a)⟩

variable (trans : ∀ a b c, le a b = true → le b c = true → le a c = true)
include trans

/-- Neighbours that are not tied may change places. -/
theorem swap {a b : β} (h : tied le a b = false) (front back : List β) :
    Rearranged le (front ++ a :: b :: back) (front ++ b :: a :: back) := by
  refine ⟨(List.Perm.swap b a back).append_left front, ?_⟩
  intro c
  have hnot : ¬(tied le c a = true ∧ tied le c b = true) := by
    rintro ⟨ha, hb⟩
    rw [tied_of_tied trans ha hb] at h
    contradiction
  simp only [List.filter_append, List.filter_cons]
  cases ha : tied le c a with
  | false => rfl
  | true =>
    cases hb : tied le c b with
    | false => rfl
    | true => exact absurd ⟨ha, hb⟩ hnot

/-- Where nothing is tied, every permutation will do. -/
theorem of_perm {l l' : List β} (h : l.Pairwise fun a b => tied le a b = false)
    (hperm : l.Perm l') : Rearranged le l l' := by
  refine ⟨hperm, ?_⟩
  intro c
  have hclass := hperm.filter (tied le c)
  have htied : ∀ a ∈ l.filter (tied le c), tied le c a = true :=
    fun a ha => (List.mem_filter.mp ha).2
  -- a class of ties has at most one member
  cases hl : l.filter (tied le c) with
  | nil =>
    rw [hl] at hclass
    exact hclass.nil_eq
  | cons a rest =>
    cases rest with
    | nil =>
      rw [hl] at hclass
      exact hclass.singleton_eq
    | cons b rest =>
      have hfree := h.filter (tied le c)
      rw [hl] at hfree htied
      have hab := List.rel_of_pairwise_cons hfree List.mem_cons_self
      rw [tied_of_tied trans (htied a (by simp)) (htied b (by simp))] at hab
      contradiction

end Rearranged

/-- No element of one list comes after an element of another. -/
def Precedes (le : β → β → Bool) (l m : List β) : Prop := ∀ a ∈ l, ∀ b ∈ m, le a b = true

/-! ## What a stable sort does -/

variable (trans : ∀ a b c, le a b = true → le b c = true → le a c = true)
  (total : ∀ a b, (le a b || le b a) = true)
include total

theorem tied_self (a : β) : tied le a a = true := by
  have h := total a a
  rw [Bool.or_self] at h
  exact tied_iff.mpr ⟨h, h⟩

/-- Lists in order that agree on every class of ties are equal. -/
theorem eq_of_filter_tied {l m : List β} (hl : l.Pairwise fun x y => le x y = true)
    (hm : m.Pairwise fun x y => le x y = true)
    (h : ∀ a, l.filter (tied le a) = m.filter (tied le a)) : l = m := by
  induction l generalizing m with
  | nil =>
    cases m with
    | nil => rfl
    | cons b u =>
      have hb := h b
      rw [List.filter_nil, List.filter_cons_of_pos (tied_self total b)] at hb
      contradiction
  | cons a t ih =>
    cases m with
    | nil =>
      have ha := h a
      rw [List.filter_nil, List.filter_cons_of_pos (tied_self total a)] at ha
      contradiction
    | cons b u =>
      rw [List.pairwise_cons] at hl hm
      -- each head is somewhere in the other list, so the two heads are tied
      have hba : le b a = true := by
        have hmem : a ∈ (b :: u).filter (tied le a) := by
          rw [← h a]
          exact List.mem_filter.mpr ⟨List.mem_cons_self, tied_self total a⟩
        rcases List.mem_cons.mp (List.mem_filter.mp hmem).1 with rfl | hu
        · exact (tied_iff.mp (tied_self total a)).1
        · exact hm.1 a hu
      have hab : le a b = true := by
        have hmem : b ∈ (a :: t).filter (tied le b) := by
          rw [h b]
          exact List.mem_filter.mpr ⟨List.mem_cons_self, tied_self total b⟩
        rcases List.mem_cons.mp (List.mem_filter.mp hmem).1 with rfl | ht
        · exact (tied_iff.mp (tied_self total b)).1
        · exact hl.1 b ht
      have hheads := h a
      rw [List.filter_cons_of_pos (tied_self total a),
        List.filter_cons_of_pos (tied_iff.mpr ⟨hab, hba⟩)] at hheads
      obtain ⟨rfl, -⟩ := List.cons.inj hheads
      congr 1
      apply ih hl.2 hm.2
      intro c
      have hc := h c
      by_cases hca : tied le c a = true
      · rw [List.filter_cons_of_pos hca, List.filter_cons_of_pos hca] at hc
        exact (List.cons.inj hc).2
      · rw [List.filter_cons_of_neg hca, List.filter_cons_of_neg hca] at hc
        exact hc

include trans

/-- A sort leaves every class of ties as it is. -/
theorem filter_tied_mergeSort (a : β) (l : List β) :
    (l.mergeSort le).filter (tied le a) = l.filter (tied le a) := by
  have hordered : (l.filter (tied le a)).Pairwise fun x y => le x y = true := by
    rw [List.pairwise_filter]
    apply List.pairwise_of_forall
    intro x y hx hy
    exact trans x a y (tied_iff.mp hx).2 (tied_iff.mp hy).1
  -- the class is in order as it came, so a stable sort keeps it as a sublist
  have hsub := (List.sublist_mergeSort trans total hordered List.filter_sublist).filter (tied le a)
  simp only [List.filter_filter, Bool.and_self] at hsub
  symm
  apply hsub.eq_of_length
  exact ((List.mergeSort_perm l le).filter (tied le a)).length_eq.symm

/-- What is left out before a sort may be left out afterwards. -/
theorem filter_mergeSort (p : β → Bool) (l : List β) :
    (l.mergeSort le).filter p = (l.filter p).mergeSort le := by
  apply eq_of_filter_tied total
  · exact (List.pairwise_mergeSort trans total l).filter p
  · exact List.pairwise_mergeSort trans total _
  · intro a
    rw [filter_tied_mergeSort trans total, List.filter_comm, filter_tied_mergeSort trans total,
      List.filter_comm]

/-- Two lists are sorted into one exactly if they are the same but for the order
of elements that are not tied. -/
theorem mergeSort_eq_iff {l l' : List β} :
    l.mergeSort le = l'.mergeSort le ↔ Rearranged le l l' := by
  constructor
  · intro h
    refine ⟨?_, ?_⟩
    · exact ((List.mergeSort_perm l le).symm.trans (.of_eq h)).trans (List.mergeSort_perm l' le)
    · intro a
      rw [← filter_tied_mergeSort trans total, h, filter_tied_mergeSort trans total]
  · intro h
    apply eq_of_filter_tied total
    · exact List.pairwise_mergeSort trans total l
    · exact List.pairwise_mergeSort trans total l'
    · intro a
      rw [filter_tied_mergeSort trans total, filter_tied_mergeSort trans total, h.ties a]

/-- Of two lists that follow each other each may be sorted on its own. -/
theorem mergeSort_append {l m : List β} (h : Precedes le l m) :
    (l ++ m).mergeSort le = l.mergeSort le ++ m.mergeSort le := by
  apply eq_of_filter_tied total
  · exact List.pairwise_mergeSort trans total _
  · refine List.pairwise_append.mpr ⟨?_, ?_, ?_⟩
    · exact List.pairwise_mergeSort trans total l
    · exact List.pairwise_mergeSort trans total m
    · intro a ha b hb
      exact h a (List.mem_mergeSort.mp ha) b (List.mem_mergeSort.mp hb)
  · intro a
    rw [filter_tied_mergeSort trans total, List.filter_append, List.filter_append,
      filter_tied_mergeSort trans total, filter_tied_mergeSort trans total]

end SwerveLocalization.StableSort
