import Mathlib
import WireColumns.Column.Basic
import WireColumns.Ragged.Offsets

/-! # Ragged columns

A column is ragged (`Column.IsRagged`) if its values are a list under each of a number of parents,
one list behind the other. It can then be counted and cut by parents: the number of values under a
parent is how often the parent occurs (`Column.toList_valueCounts`), a list starts at the number of
smaller parents (`listOffsets_eq`), and its values are those under each parent, one after the other
(`Column.IsRagged.flatten_valuesUnder`). -/

namespace WireColumns

namespace Column

variable {c : Column} {n : Nat}

/-- The values of the column are a list under each of the parents `0, …, n - 1`, in this order. -/
structure IsRagged (c : Column) (n : Nat) : Prop where
  length_eq : c.parents.length = c.values.length
  ascending : c.parents.Pairwise (· ≤ ·)
  in_range : ∀ p ∈ c.parents, 0 ≤ p ∧ p < n

theorem getElem?_foldl_modify (parents : List Int) (counts : Array Nat) (i : Nat) :
    (parents.foldl (fun counts p => if 0 ≤ p then counts.modify p.toNat (· + 1) else counts)
      counts)[i]? = counts[i]?.map (· + parents.count (i : Int)) := by
  induction parents generalizing counts with
  | nil => simp
  | cons p parents ih =>
    rw [List.foldl_cons, ih, List.count_cons]
    split
    next hp =>
      lift p to Nat using hp
      rw [Array.getElem?_modify]
      by_cases heq : p = i
      · subst heq
        cases counts[p]? <;> simp [Nat.add_comm, Nat.add_left_comm]
      · simp [heq]
    next hp =>
      have hne : p ≠ (i : Int) := by omega
      simp [hne]

/-- The number of values under a parent. -/
theorem toList_valueCounts (c : Column) (n : Nat) :
    (c.valueCounts n).toList = (List.range n).map fun i : Nat => c.parents.count (i : Int) := by
  refine List.ext_getElem? fun i => ?_
  rw [Array.getElem?_toList, valueCounts, getElem?_foldl_modify, Array.getElem?_replicate,
    List.getElem?_map]
  by_cases hi : i < n
  · rw [if_pos hi, List.getElem?_range hi]
    simp
  · rw [if_neg hi, List.getElem?_eq_none (by simpa using hi)]
    rfl

/-- The values under a parent, in their order. -/
def valuesUnder (c : Column) (p : Int) : List Value :=
  ((c.values.zip c.parents).filter fun e => e.2 == p).map Prod.fst

end Column

/-! ## Offsets -/

/-- Where the lists of the parents `0, …, n` start: behind the values of smaller parents. -/
def starts (parents : List Int) (n : Nat) : List Nat :=
  (List.range (n + 1)).map fun i : Nat => parents.countP (· < (i : Int))

variable {n k : Nat} {parents : List Nat}

/-- The lists from a parent `p` down to the parent in front of it start at the same position. -/
theorem map_starts_cons {p : Nat} (hkp : k ≤ p) (hpn : p < n) (hle : ∀ q ∈ parents, p ≤ q)
    (position : Nat) :
    (List.range' (k + 1) (n - k)).map (fun i => position + (p :: parents).countP (· < i)) =
      List.replicate (p - k) position ++ (List.range' (p + 1) (n - p)).map fun i =>
        position + 1 + parents.countP (· < i) := by
  have hsplit : List.range' (k + 1) (n - k) =
      List.range' (k + 1) (p - k) ++ List.range' (p + 1) (n - p) := by
    have happend := List.range'_append_1 (s := k + 1) (m := p - k) (n := n - p)
    rw [show k + 1 + (p - k) = p + 1 by omega, show p - k + (n - p) = n - k by omega] at happend
    exact happend.symm
  rw [hsplit, List.map_append]
  congr 1
  · refine List.eq_replicate_iff.2 ⟨by simp, fun start hstart => ?_⟩
    obtain ⟨i, hi, rfl⟩ := List.mem_map.1 hstart
    have hi := (List.mem_range'_1.1 hi).2
    have hnone : (p :: parents).countP (· < i) = 0 := by
      refine List.countP_eq_zero.2 fun q hq => ?_
      have hpq : p ≤ q := by
        rcases List.mem_cons.1 hq with rfl | hq
        · exact Nat.le_refl q
        · exact hle q hq
      simp only [decide_eq_true_eq]
      omega
    rw [hnone, Nat.add_zero]
  · refine List.map_congr_left fun i hi => ?_
    have hi := (List.mem_range'_1.1 hi).1
    rw [List.countP_cons_of_pos (by simpa using hi)]
    omega

/-- Behind a parent the offsets go on with the lists of the parents above it, each starting behind
the values of smaller parents. -/
theorem offsetsFrom_eq (hsorted : (k :: parents).Pairwise (· ≤ ·)) (hlt : ∀ p ∈ parents, p < n)
    (position : Nat) {offsets : Array Nat} (hsize : offsets.size = k + 1) :
    offsetsFrom n k position offsets (parents.map Nat.cast) =
      .ok (offsets ++ ((List.range' (k + 1) (n - k)).map fun i =>
        position + parents.countP (· < i)).toArray) := by
  induction parents generalizing k position offsets with
  | nil =>
    rw [List.map_nil, offsetsFrom, hsize]
    simp [List.map_const']
  | cons p parents ih =>
    obtain ⟨hfirst, hsorted'⟩ := List.pairwise_cons.1 hsorted
    have hkp : k ≤ p := hfirst p List.mem_cons_self
    have hpn : p < n := hlt p List.mem_cons_self
    have hstarts := map_starts_cons hkp hpn (List.pairwise_cons.1 hsorted').1 position
    have hnext : (offsets ++ Array.replicate (p - k) position).size = p + 1 := by
      rw [Array.size_append, hsize, Array.size_replicate]
      omega
    rw [List.map_cons, offsetsFrom, if_neg (by omega)]
    dsimp only
    rw [Int.toNat_natCast, hsize, Nat.add_sub_add_right,
      ih hsorted' (fun q hq => hlt q (List.mem_cons_of_mem _ hq)) _ hnext, hstarts]
    simp [← List.toArray_replicate]

/-- A list starts behind the values of smaller parents. -/
theorem listOffsets_eq {parents : List Int} (hsorted : parents.Pairwise (· ≤ ·))
    (hrange : ∀ p ∈ parents, 0 ≤ p ∧ p < n) :
    listOffsets parents n = .ok (starts parents n) := by
  lift parents to List Nat using fun p hp => (hrange p hp).1
  have hlt : ∀ p ∈ parents, p < n := fun p hp =>
    Int.ofNat_lt.1 (hrange p (List.mem_map_of_mem hp)).2
  have hsorted : (0 :: parents).Pairwise (· ≤ ·) := by
    refine List.pairwise_cons.2 ⟨fun p _ => Nat.zero_le p, ?_⟩
    exact (List.pairwise_map.1 hsorted).imp Int.ofNat_le.1
  have hoffsets : offsetsFrom n 0 0 #[0] (parents.map Nat.cast) = _ :=
    offsetsFrom_eq hsorted hlt 0 rfl
  have hcount : ∀ i : Nat, (parents.map Nat.cast).countP (fun p : Int => p < i) =
      parents.countP (· < i) := by
    intro i
    rw [List.countP_map]
    exact List.countP_congr fun p _ => by simp
  have hnone : parents.countP (· < 0) = 0 := List.countP_eq_zero.2 fun p _ => by simp
  rw [listOffsets, hoffsets, starts, List.range_eq_range', List.range'_succ, List.map_cons, hcount,
    hnone]
  simp [hcount]

/-! ## Lists -/

section

variable {α : Type} {entries : List α} (key : α → Int)

/-- The entries below a bound come in front of those at it. -/
theorem filter_lt_append_filter_eq (hsorted : (entries.map key).Pairwise (· ≤ ·)) (k : Int) :
    entries.filter (fun e => decide (key e < k)) ++ entries.filter (fun e => key e == k) =
      entries.filter fun e => decide (key e ≤ k) := by
  induction entries with
  | nil => rfl
  | cons e entries ih =>
    obtain ⟨hfirst, hsorted⟩ := List.pairwise_cons.1 hsorted
    rw [List.forall_mem_map] at hfirst
    specialize ih hsorted
    rcases lt_or_ge (key e) k with hlt | hge
    · simp [hlt, hlt.ne, hlt.le, ih]
    · have hbelow : entries.filter (fun e => decide (key e < k)) = [] :=
        List.filter_eq_nil_iff.2 fun e' he' => by simpa using hge.trans (hfirst e' he')
      rw [hbelow, List.nil_append] at ih
      rcases hge.eq_or_lt with heq | hlt
      · simp [← heq, hbelow, ih]
      · simp [hge.not_gt, hlt.ne', hlt.not_ge, hbelow, ih]

/-- Sorted entries are those of each parent, one after the other. -/
theorem flatMap_filter_eq (hsorted : (entries.map key).Pairwise (· ≤ ·))
    (hrange : ∀ e ∈ entries, 0 ≤ key e ∧ key e < n) :
    ((List.range n).flatMap fun i : Nat => entries.filter fun e => key e == (i : Int)) =
      entries := by
  have hbelow : ∀ k : Nat,
      ((List.range k).flatMap fun i : Nat => entries.filter fun e => key e == (i : Int)) =
        entries.filter fun e => decide (key e < (k : Int)) := by
    intro k
    induction k with
    | zero => exact (List.filter_eq_nil_iff.2 fun e he => by simpa using (hrange e he).1).symm
    | succ k ih =>
      rw [List.range_succ, List.flatMap_append, ih, List.flatMap_singleton,
        filter_lt_append_filter_eq key hsorted]
      exact List.filter_congr fun e _ => decide_eq_decide.2 Int.lt_add_one_iff.symm
  rw [hbelow, List.filter_eq_self]
  exact fun e he => decide_eq_true (hrange e he).2

end

theorem countP_lt_succ (parents : List Int) (k : Int) :
    parents.countP (· < k + 1) = parents.countP (· < k) + parents.count k := by
  induction parents with
  | nil => rfl
  | cons p parents ih =>
    simp only [List.countP_cons, List.count_cons, ih, decide_eq_true_eq, beq_iff_eq]
    split_ifs <;> omega

section

variable {parents : List Int}

theorem length_starts (parents : List Int) (n : Nat) : (starts parents n).length = n + 1 := by
  simp [starts]

theorem getElem?_starts {i : Nat} (hi : i ≤ n) (parents : List Int) :
    (starts parents n)[i]? = some (parents.countP (· < (i : Int))) := by
  rw [starts, List.getElem?_map, List.getElem?_range (Nat.lt_succ_of_le hi)]
  rfl

theorem pairwise_starts (parents : List Int) (n : Nat) :
    (starts parents n).Pairwise (· ≤ ·) := by
  rw [starts, List.pairwise_map]
  refine List.pairwise_lt_range.imp fun hlt => List.countP_mono_left fun p _ hp => ?_
  simp only [decide_eq_true_eq] at hp ⊢
  omega

theorem head?_starts (h : ∀ p ∈ parents, 0 ≤ p) (n : Nat) :
    (starts parents n).head? = some 0 := by
  rw [List.head?_eq_getElem?, getElem?_starts (Nat.zero_le n)]
  exact congrArg some (List.countP_eq_zero.2 fun p hp => by simpa using h p hp)

theorem getLast?_starts (h : ∀ p ∈ parents, p < n) :
    (starts parents n).getLast? = some parents.length := by
  rw [List.getLast?_eq_getElem?, length_starts, Nat.add_sub_cancel, getElem?_starts le_rfl]
  exact congrArg some (List.countP_eq_length.2 fun p hp => by simpa using h p hp)

/-- The length of a list is the distance of its start from the next one. -/
theorem zipWith_starts (parents : List Int) (n : Nat) :
    List.zipWith (· - ·) (starts parents n).tail (starts parents n) =
      (List.range n).map fun i : Nat => parents.count (i : Int) := by
  refine List.ext_getElem (by simp [starts]) fun i hi hi' => ?_
  have hcount := countP_lt_succ parents i
  simp only [starts, List.getElem_zipWith, List.getElem_tail, List.getElem_map,
    List.getElem_range, Nat.cast_add, Nat.cast_one]
  omega

end

namespace Column

variable {c : Column}

theorem IsRagged.map_snd_zip (h : c.IsRagged n) :
    (c.values.zip c.parents).map Prod.snd = c.parents :=
  List.map_snd_zip h.length_eq.le

theorem IsRagged.length_valuesUnder (h : c.IsRagged n) (p : Int) :
    (c.valuesUnder p).length = c.parents.count p := by
  rw [valuesUnder, List.length_map, ← List.countP_eq_length_filter, List.count]
  nth_rewrite 2 [← h.map_snd_zip]
  rw [List.countP_map]
  rfl

theorem IsRagged.map_length_valuesUnder (h : c.IsRagged n) :
    ((List.range n).map fun i : Nat => c.valuesUnder i).map List.length =
      (List.range n).map fun i : Nat => c.parents.count (i : Int) := by
  rw [List.map_map]
  exact List.map_congr_left fun i _ => h.length_valuesUnder i

/-- The values are those of each parent, one after the other. -/
theorem IsRagged.flatten_valuesUnder (h : c.IsRagged n) :
    ((List.range n).map fun i : Nat => c.valuesUnder i).flatten = c.values := by
  have hsorted : ((c.values.zip c.parents).map Prod.snd).Pairwise (· ≤ ·) := by
    rw [h.map_snd_zip]
    exact h.ascending
  have hrange : ∀ e ∈ c.values.zip c.parents, 0 ≤ e.2 ∧ e.2 < n := fun e he =>
    h.in_range e.2 (List.of_mem_zip he).2
  have hvalues : (c.values.zip c.parents).map Prod.fst = c.values :=
    List.map_fst_zip h.length_eq.ge
  rw [← flatMap_filter_eq Prod.snd hsorted hrange, List.map_flatMap] at hvalues
  exact hvalues

/-- Every value is under one of the parents. -/
theorem IsRagged.sum_valueCounts (h : c.IsRagged n) :
    (c.valueCounts n).toList.sum = c.values.length := by
  rw [toList_valueCounts, ← h.map_length_valuesUnder, ← List.length_flatten,
    h.flatten_valuesUnder]

end Column

end WireColumns
