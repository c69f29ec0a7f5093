import Mathlib
import WireColumns.Ragged.Join

/-! # The merge join is the join

Comparing all pairs of values gives each pair of positions with equal values once, by the position
on the left and then by the one on the right (`Join.isJoin_any`). Merging sorted columns gives the
same pairs (`Join.mergeFrom_eq`): a value that is passed over is less than everything left in the
other column, and the values that equal one on the left are the first ones left on the right. -/

namespace WireColumns.Join

variable {α : Type}

/-- The pairs of positions with equal values, each once, by the position on the left and then by
the one on the right. -/
structure IsJoin (a b : List α) (pairs : List (Nat × Nat)) : Prop where
  mem_iff : ∀ i j, (i, j) ∈ pairs ↔ ∃ x, a[i]? = some x ∧ b[j]? = some x
  ascending : pairs.Pairwise (Prod.Lex (· < ·) (· < ·))

theorem IsJoin.nodup {a b : List α} {pairs : List (Nat × Nat)} (h : IsJoin a b pairs) :
    pairs.Nodup := by
  apply h.ascending.imp
  rintro p q hlt rfl
  exact irrefl_of (Prod.Lex (· < ·) (· < ·)) p hlt

theorem pairwise_zipIdx (l : List α) (i : Nat) :
    (l.zipIdx i).Pairwise fun e f => e.2 < f.2 := by
  have hpositions := List.pairwise_lt_range' (s := i) (n := l.length) 1
  rwa [← List.zipIdx_map_snd, List.pairwise_map] at hpositions

variable [LinearOrder α] {a b : List α} {x y : α} {i j : Nat}

/-- The positions, from `j` on, of the values that equal `x`. -/
def positionsOf (x : α) (j : Nat) (b : List α) : List Nat :=
  ((b.zipIdx j).filter fun e => x == e.1).map Prod.snd

/-- The pairs of positions with equal values in columns that start at positions `i` and `j`. -/
def pairsFrom (i j : Nat) (a b : List α) : List (Nat × Nat) :=
  (a.zipIdx i).flatMap fun e => (positionsOf e.1 j b).map fun k => (e.2, k)

/-! ## Comparing all pairs -/

theorem any_eq_pairsFrom (a b : List α) : any a b = pairsFrom 0 0 a b := by
  simp only [any, pairsFrom, positionsOf, List.map_map]
  rfl

theorem mem_positionsOf : j ∈ positionsOf x 0 b ↔ b[j]? = some x := by
  rw [positionsOf, List.mem_map]
  constructor
  · rintro ⟨⟨y, j⟩, he, rfl⟩
    obtain ⟨hy, heq⟩ := List.mem_filter.1 he
    rw [beq_iff_eq.1 heq]
    exact List.mem_zipIdx_iff_getElem?.1 hy
  · intro hj
    refine ⟨(x, j), List.mem_filter.2 ⟨?_, beq_self_eq_true x⟩, rfl⟩
    exact List.mem_zipIdx_iff_getElem?.2 hj

theorem mem_pairsFrom : (i, j) ∈ pairsFrom 0 0 a b ↔ ∃ x, a[i]? = some x ∧ b[j]? = some x := by
  rw [pairsFrom, List.mem_flatMap]
  constructor
  · rintro ⟨⟨x, k⟩, hx, hpair⟩
    obtain ⟨l, hl, heq⟩ := List.mem_map.1 hpair
    cases heq
    exact ⟨x, List.mem_zipIdx_iff_getElem?.1 hx, mem_positionsOf.1 hl⟩
  · rintro ⟨x, hx, hj⟩
    refine ⟨(x, i), List.mem_zipIdx_iff_getElem?.2 hx, ?_⟩
    exact List.mem_map.2 ⟨j, mem_positionsOf.2 hj, rfl⟩

theorem pairwise_pairsFrom (i j : Nat) (a b : List α) :
    (pairsFrom i j a b).Pairwise (Prod.Lex (· < ·) (· < ·)) := by
  rw [pairsFrom, List.pairwise_flatMap]
  constructor
  · rintro ⟨x, i⟩ -
    rw [List.pairwise_map, positionsOf, List.pairwise_map]
    apply ((pairwise_zipIdx b j).filter _).imp
    intro e f hlt
    exact Prod.Lex.right i hlt
  · apply (pairwise_zipIdx a i).imp
    intro e f hlt p hp q hq
    obtain ⟨k, -, rfl⟩ := List.mem_map.1 hp
    obtain ⟨l, -, rfl⟩ := List.mem_map.1 hq
    exact Prod.Lex.left k l hlt

/-- Whatever the order of the columns. -/
theorem isJoin_any (a b : List α) : IsJoin a b (any a b) := by
  rw [any_eq_pairsFrom]
  exact ⟨fun _ _ => mem_pairsFrom, pairwise_pairsFrom 0 0 a b⟩

/-! ## Merging sorted columns -/

theorem isSorted_iff : isSorted a = true ↔ a.Pairwise (· ≤ ·) := by
  rw [← List.isChain_iff_pairwise]
  induction a with
  | nil => simp [isSorted]
  | cons x rest ih =>
    cases rest with
    | nil => simp [isSorted]
    | cons y rest =>
      rw [isSorted, Bool.and_eq_true, ih, List.isChain_cons_cons, bne_iff_ne, compare_le_iff_le]

theorem positionsOf_cons_self (x : α) (j : Nat) (b : List α) :
    positionsOf x j (x :: b) = j :: positionsOf x (j + 1) b := by
  simp [positionsOf]

theorem positionsOf_cons_of_ne (h : x ≠ y) (j : Nat) (b : List α) :
    positionsOf x j (y :: b) = positionsOf x (j + 1) b := by
  simp [positionsOf, h]

theorem lt_of_lt_head (hsorted : (y :: b).Pairwise (· ≤ ·)) (h : x < y) : ∀ z ∈ y :: b, x < z := by
  intro z hz
  rcases List.mem_cons.1 hz with rfl | hz
  · exact h
  · exact h.trans_le ((List.pairwise_cons.1 hsorted).1 z hz)

/-- A value that is less than all others is not among them. -/
theorem positionsOf_eq_nil (h : ∀ y ∈ b, x < y) (j : Nat) : positionsOf x j b = [] := by
  induction b generalizing j with
  | nil => rfl
  | cons y b ih =>
    rw [List.forall_mem_cons] at h
    rw [positionsOf_cons_of_ne h.1.ne, ih h.2]

/-- In a sorted column the values that equal `x` are the first, if none is less. -/
theorem runPositions_eq (hsorted : b.Pairwise (· ≤ ·)) (hle : ∀ y ∈ b, x ≤ y) (j : Nat) :
    runPositions x j b = positionsOf x j b := by
  induction b generalizing j with
  | nil => rfl
  | cons y b ih =>
    rw [List.forall_mem_cons] at hle
    rcases hle.1.eq_or_lt with rfl | hlt
    · rw [runPositions, if_pos (by simp), ih hsorted.of_cons hle.2, positionsOf_cons_self]
    · rw [runPositions, if_neg (by simp [hlt.ne]),
        positionsOf_eq_nil (lt_of_lt_head hsorted hlt)]

theorem pairsFrom_cons (x : α) (i j : Nat) (a b : List α) :
    pairsFrom i j (x :: a) b =
      (positionsOf x j b).map (fun k => (i, k)) ++ pairsFrom (i + 1) j a b := by
  rw [pairsFrom, List.zipIdx_cons, List.flatMap_cons]
  rfl

/-- A value on the right that is less than all on the left is in no pair. -/
theorem pairsFrom_cons_right (h : ∀ x ∈ a, y < x) (i j : Nat) (b : List α) :
    pairsFrom i j a (y :: b) = pairsFrom i (j + 1) a b := by
  induction a generalizing i with
  | nil => rfl
  | cons x a ih =>
    rw [List.forall_mem_cons] at h
    rw [pairsFrom_cons, pairsFrom_cons, positionsOf_cons_of_ne h.1.ne', ih h.2]

theorem pairsFrom_nil_right (i j : Nat) (a : List α) : pairsFrom i j a [] = [] := by
  rw [pairsFrom, List.flatMap_eq_nil_iff]
  intro e _
  rfl

/-- What has been merged stands in front of the pairs of what is left: no pair is lost, because the
smaller of the two values in front equals none that is left in the other column. -/
theorem mergeFrom_eq (ha : a.Pairwise (· ≤ ·)) (hb : b.Pairwise (· ≤ ·))
    (seen : Array (Nat × Nat)) (i j : Nat) :
    mergeFrom seen i j a b = seen.toList ++ pairsFrom i j a b := by
  fun_induction mergeFrom seen i j a b with
  | case1 seen i j x xs y ys hcompare ih =>
    have hnone := lt_of_lt_head hb (compare_lt_iff_lt.1 hcompare)
    rw [ih ha.of_cons hb, pairsFrom_cons, positionsOf_eq_nil hnone, List.map_nil, List.nil_append]
  | case2 seen i j x xs y ys hcompare ih =>
    have hnone := lt_of_lt_head ha (compare_gt_iff_gt.1 hcompare)
    rw [ih ha hb.of_cons, pairsFrom_cons_right hnone]
  | case3 seen i j x xs y ys hcompare pairs ih =>
    obtain rfl := compare_eq_iff_eq.1 hcompare
    have hle : ∀ z ∈ x :: ys, x ≤ z :=
      List.forall_mem_cons.2 ⟨le_rfl, (List.pairwise_cons.1 hb).1⟩
    have hpairs : pairs = (positionsOf x j (x :: ys)).map fun k => (i, k) := by
      rw [← runPositions_eq hb hle]
    rw [ih ha.of_cons hb, pairsFrom_cons, hpairs]
    simp
  | case4 seen i j a b hnone =>
    cases a with
    | nil => simp [pairsFrom]
    | cons x xs =>
      cases b with
      | nil => rw [pairsFrom_nil_right, List.append_nil]
      | cons y ys => exact (hnone x xs y ys rfl rfl).elim

theorem sorted_eq_any (ha : a.Pairwise (· ≤ ·)) (hb : b.Pairwise (· ≤ ·)) :
    sorted a b = .ok (any a b) := by
  rw [sorted, isSorted_iff.2 ha, isSorted_iff.2 hb, mergeFrom_eq ha hb, any_eq_pairsFrom]
  rfl

theorem sorted_eq_error_left (ha : ¬ a.Pairwise (· ≤ ·)) (b : List α) :
    sorted a b = .error (.invalidArgument (.unsorted "a")) := by
  rw [sorted, Bool.eq_false_iff.2 (mt isSorted_iff.1 ha)]
  rfl

theorem sorted_eq_error_right (ha : a.Pairwise (· ≤ ·)) (hb : ¬ b.Pairwise (· ≤ ·)) :
    sorted a b = .error (.invalidArgument (.unsorted "b")) := by
  rw [sorted, isSorted_iff.2 ha, Bool.eq_false_iff.2 (mt isSorted_iff.1 hb)]
  rfl

/-- The join of two columns is refused if and only if one of them is not sorted. Otherwise it holds
each pair of positions with equal values once, by the position on the left and then by the one on
the right, and is what comparing all pairs gives. -/
theorem sorted_eq_join (a b : List α) :
    ((∃ e, sorted a b = .error e) ↔ ¬ (a.Pairwise (· ≤ ·) ∧ b.Pairwise (· ≤ ·))) ∧
    ∀ pairs, sorted a b = .ok pairs → IsJoin a b pairs ∧ pairs.Nodup ∧ pairs = any a b := by
  by_cases ha : a.Pairwise (· ≤ ·)
  · by_cases hb : b.Pairwise (· ≤ ·)
    · rw [sorted_eq_any ha hb]
      refine ⟨by simp [ha, hb], fun pairs hpairs => ?_⟩
      cases hpairs
      exact ⟨isJoin_any a b, (isJoin_any a b).nodup, rfl⟩
    · rw [sorted_eq_error_right ha hb]
      exact ⟨by simp [hb], fun pairs hpairs => by cases hpairs⟩
  · rw [sorted_eq_error_left ha]
    exact ⟨by simp [ha], fun pairs hpairs => by cases hpairs⟩

/-- A value that occurs twice on both sides. -/
theorem sorted_eq_join_runs :
    sorted [1, 1, 2, 5] [1, 1, 2, 6] = .ok [(0, 0), (0, 1), (1, 0), (1, 1), (2, 2)] ∧
      IsJoin [1, 1, 2, 5] [1, 1, 2, 6] [(0, 0), (0, 1), (1, 0), (1, 1), (2, 2)] := by
  have hok : sorted [1, 1, 2, 5] [1, 1, 2, 6] = .ok [(0, 0), (0, 1), (1, 0), (1, 1), (2, 2)] :=
    sorted_eq_any (by decide) (by decide)
  exact ⟨hok, ((sorted_eq_join [1, 1, 2, 5] [1, 1, 2, 6]).2 _ hok).1⟩

end WireColumns.Join
