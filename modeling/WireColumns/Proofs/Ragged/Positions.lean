import WireColumns.Proofs.Ragged.Offsets
import WireColumns.Ragged.RunLength

/-! # The position of a value

The offsets of a list of parents exist just if the parents ascend and are in range
(`listOffsets_eq_ok_iff`). A value's position is the offset of its parent's list plus the number of
values in front of it under the same parent (`countP_lt_add_count_take`), which is its run length
(`runLengthsBefore_eq`). So the offsets say all that the parents say (`parentsOf_starts`);
`listOffsets_positions` puts this together. -/

namespace WireColumns

variable {n : Nat} {parents : List Int}

/-! ## Which parents have offsets -/

theorem ascending_of_offsetsFrom {previous : Int} {position : Nat} {offsets offsets' : Array Nat}
    (h : offsetsFrom n previous position offsets parents = .ok offsets') :
    (previous :: parents).Pairwise (· ≤ ·) ∧ ∀ p ∈ parents, p < n := by
  induction parents generalizing previous position offsets with
  | nil => simp
  | cons p parents ih =>
    rw [offsetsFrom] at h
    split at h
    next => cases h
    next hfits =>
      rw [not_or, not_lt, not_le] at hfits
      obtain ⟨hsorted, hrange⟩ := ih h
      refine ⟨List.pairwise_cons.2 ⟨?_, hsorted⟩, List.forall_mem_cons.2 ⟨hfits.2, hrange⟩⟩
      intro q hq
      rcases List.mem_cons.1 hq with rfl | hq
      · exact hfits.1
      · exact hfits.1.trans ((List.pairwise_cons.1 hsorted).1 q hq)

theorem listOffsets_eq_ok_iff {offsets : List Nat} :
    listOffsets parents n = .ok offsets ↔
      (parents.Pairwise (· ≤ ·) ∧ ∀ p ∈ parents, 0 ≤ p ∧ p < n) ∧ offsets = starts parents n := by
  constructor
  · intro h
    have hvalid : parents.Pairwise (· ≤ ·) ∧ ∀ p ∈ parents, 0 ≤ p ∧ p < n := by
      rw [listOffsets] at h
      split at h
      next hoffsets =>
        obtain ⟨hsorted, hrange⟩ := ascending_of_offsetsFrom hoffsets
        obtain ⟨hnonneg, hsorted⟩ := List.pairwise_cons.1 hsorted
        exact ⟨hsorted, fun p hp => ⟨hnonneg p hp, hrange p hp⟩⟩
      next => cases h
    rw [listOffsets_eq hvalid.1 hvalid.2] at h
    cases h
    exact ⟨hvalid, rfl⟩
  · rintro ⟨⟨hsorted, hrange⟩, rfl⟩
    exact listOffsets_eq hsorted hrange

/-! ## Run lengths -/

section

variable {α : Type} [LinearOrder α] {front rest : List α} {previous : α}

/-- Behind a sorted list, a value that is not less than the last one occurs in it as often as the
run at its end is long. -/
theorem count_concat (hsorted : (front ++ [previous]).Pairwise (· ≤ ·)) {x : α}
    (hle : previous ≤ x) :
    (front ++ [previous]).count x = if previous == x then front.count previous + 1 else 0 := by
  split
  next heq =>
    obtain rfl := beq_iff_eq.1 heq
    simp
  next hne =>
    have hlt : previous < x := hle.lt_of_ne fun heq => hne (beq_iff_eq.2 heq)
    rw [List.count_eq_zero]
    intro hx
    rcases List.mem_append.1 hx with hx | hx
    · have hfront := (List.pairwise_append.1 hsorted).2.2 x hx previous (List.mem_singleton_self _)
      exact hlt.not_ge hfront
    · exact hlt.ne' (List.mem_singleton.1 hx)

theorem runLengthsFrom_eq (hsorted : (front ++ previous :: rest).Pairwise (· ≤ ·))
    (seen : Array Nat) :
    runLengthsFrom previous (front.count previous) seen rest =
      seen.toList ++ (rest.zipIdx (front.length + 1)).map fun e =>
        ((front ++ previous :: rest).take e.2).count e.1 := by
  induction rest generalizing front previous seen with
  | nil => simp [runLengthsFrom]
  | cons x rest ih =>
    have hmove : front ++ previous :: x :: rest = (front ++ [previous]) ++ x :: rest := by simp
    have htake :
        (front ++ previous :: x :: rest).take (front.length + 1) = front ++ [previous] := by
      rw [hmove]
      exact List.take_left' (by simp)
    rw [hmove] at hsorted
    obtain ⟨hfront, -, hcross⟩ := List.pairwise_append.1 hsorted
    have hle : previous ≤ x := hcross previous (by simp) x List.mem_cons_self
    rw [runLengthsFrom, List.zipIdx_cons, List.map_cons, htake, ← count_concat hfront hle]
    dsimp only
    rw [ih hsorted, ← hmove, List.length_append]
    simp

/-- In a sorted list the run in front of a value is all values equal to it in front of it. -/
theorem runLengthsBefore_eq {l : List α} (hsorted : l.Pairwise (· ≤ ·)) :
    runLengthsBefore l = l.zipIdx.map fun e => (l.take e.2).count e.1 := by
  cases l with
  | nil => rfl
  | cons x rest =>
    have hrun : runLengthsFrom x (List.count x []) #[0] rest = _ :=
      runLengthsFrom_eq (show ([] ++ x :: rest).Pairwise (· ≤ ·) from hsorted) #[0]
    rw [List.count_nil] at hrun
    rw [runLengthsBefore, hrun]
    simp

end

/-! ## Positions -/

/-- The parents of the values in the lists with the given offsets. -/
def parentsOf (offsets : List Nat) : List Int :=
  (List.zipWith (· - ·) offsets.tail offsets).zipIdx.flatMap fun e =>
    List.replicate e.1 (e.2 : Int)

/-- The offsets of `n` lists, one under each parent. -/
structure IsOffsets (parents : List Int) (n : Nat) (offsets : List Nat) : Prop where
  length_eq : offsets.length = n + 1
  ascending : offsets.Pairwise (· ≤ ·)
  head?_eq : offsets.head? = some 0
  getLast?_eq : offsets.getLast? = some parents.length
  next_eq : ∀ p < n, ∃ start, offsets[p]? = some start ∧
    offsets[p + 1]? = some (start + parents.count (p : Int))

/-- The values in front of one are those of smaller parents and those of the same parent that come
before it. -/
theorem countP_lt_add_count_take (hsorted : parents.Pairwise (· ≤ ·)) {k : Nat} {p : Int}
    (hk : parents[k]? = some p) : parents.countP (· < p) + (parents.take k).count p = k := by
  obtain ⟨front, rest, rfl, rfl⟩ :
      ∃ front rest, parents = front ++ p :: rest ∧ front.length = k := by
    obtain ⟨hlt, rfl⟩ := List.getElem?_eq_some_iff.1 hk
    refine ⟨parents.take k, parents.drop (k + 1), ?_, by simp [hlt.le]⟩
    rw [← List.drop_eq_getElem_cons hlt, List.take_append_drop]
  obtain ⟨-, hbehind, hcross⟩ := List.pairwise_append.1 hsorted
  have hnone : (p :: rest).countP (· < p) = 0 := by
    rw [List.countP_eq_zero]
    intro q hq
    rcases List.mem_cons.1 hq with rfl | hq
    · simp
    · simpa using (List.pairwise_cons.1 hbehind).1 q hq
  have hall : front.countP (· < p + 1) = front.length := by
    rw [List.countP_eq_length]
    intro q hq
    simpa [Int.lt_add_one_iff] using hcross q hq p List.mem_cons_self
  rw [List.take_left, List.countP_append, hnone, Nat.add_zero, ← countP_lt_succ, hall]

theorem parentsOf_starts (hsorted : parents.Pairwise (· ≤ ·))
    (hrange : ∀ p ∈ parents, 0 ≤ p ∧ p < n) : parentsOf (starts parents n) = parents := by
  have hzip : ((List.range n).map fun i : Nat => parents.count (i : Int)).zipIdx =
      (List.range n).map fun i : Nat => (parents.count (i : Int), i) :=
    List.ext_getElem (by simp) fun i hi hi' => by simp
  rw [parentsOf, zipWith_starts, hzip, List.flatMap_map]
  have hfilter := flatMap_filter_eq id (by rwa [List.map_id]) hrange
  simpa only [id, List.filter_beq] using hfilter

theorem isOffsets_starts (hrange : ∀ p ∈ parents, 0 ≤ p ∧ p < n) :
    IsOffsets parents n (starts parents n) := by
  refine ⟨length_starts _ _, pairwise_starts _ _, head?_starts (fun p hp => (hrange p hp).1) n,
    getLast?_starts fun p hp => (hrange p hp).2, fun p hp => ?_⟩
  refine ⟨_, getElem?_starts hp.le parents, ?_⟩
  rw [getElem?_starts hp, ← countP_lt_succ, Nat.cast_succ]

/-- There are offsets for `n` parents if and only if the parents of the values ascend and are among
`0, …, n - 1`. They are those of one list per parent, as long as the parent has values, and the
position of a value is the offset of its parent and its run length together. So the parents can be
had back from them. -/
theorem listOffsets_positions (c : Column) (n : Nat) :
    ((∃ offsets, listOffsets c.parents n = .ok offsets) ↔
      c.parents.Pairwise (· ≤ ·) ∧ ∀ p ∈ c.parents, 0 ≤ p ∧ p < n) ∧
    ∀ offsets, listOffsets c.parents n = .ok offsets →
      IsOffsets c.parents n offsets ∧
      (c.valueCounts n).toList = (List.range n).map (fun p : Nat => c.parents.count (p : Int)) ∧
      (∀ (k : Nat) (parent : Int), c.parents[k]? = some parent →
        ∃ start run, offsets[parent.toNat]? = some start ∧
          (runLengthsBefore c.parents)[k]? = some run ∧ start + run = k) ∧
      parentsOf offsets = c.parents := by
  refine ⟨by simp [listOffsets_eq_ok_iff], fun offsets hoffsets => ?_⟩
  obtain ⟨⟨hsorted, hrange⟩, rfl⟩ := listOffsets_eq_ok_iff.1 hoffsets
  refine ⟨isOffsets_starts hrange, c.toList_valueCounts n, ?_, parentsOf_starts hsorted hrange⟩
  intro k parent hk
  obtain ⟨hnonneg, hlt⟩ := hrange parent (List.mem_of_getElem? hk)
  lift parent to Nat using hnonneg
  refine ⟨_, _, getElem?_starts (by omega) c.parents, ?_, countP_lt_add_count_take hsorted hk⟩
  rw [runLengthsBefore_eq hsorted, List.getElem?_map, List.getElem?_zipIdx, hk]
  simp

/-- Two values under parent 1 and one under parent 3; the parents in front of them, between them and
behind them have none. -/
theorem listOffsets_positions_gaps :
    listOffsets [1, 1, 3] 5 = .ok [0, 0, 2, 2, 3, 3] ∧
      IsOffsets [1, 1, 3] 5 [0, 0, 2, 2, 3, 3] ∧
      (∃ start run, ([0, 0, 2, 2, 3, 3] : List Nat)[1]? = some start ∧
        (runLengthsBefore ([1, 1, 3] : List Int))[1]? = some run ∧ start + run = 1) ∧
      parentsOf [0, 0, 2, 2, 3, 3] = [1, 1, 3] := by
  have hok : listOffsets [1, 1, 3] 5 = .ok [0, 0, 2, 2, 3, 3] := rfl
  obtain ⟨hoffsets, -, hposition, hparents⟩ :=
    (listOffsets_positions ⟨.bool, .borrowed, [.bool true, .bool false, .bool true], [1, 1, 3]⟩
      5).2 _ hok
  exact ⟨hok, hoffsets, hposition 1 1 rfl, hparents⟩

end WireColumns
