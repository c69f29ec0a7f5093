import Mathlib
import WireColumns.Nesting.Pattern

/-! # Levels and steps

How far down a path the levels of an entry reach, step by step (`Pattern.lt_definedSteps_iff`,
`Pattern.lt_sharedSteps_iff`). A definition level that counts the steps in front of one that is not
required reaches just these (`Pattern.definedSteps_of_split`); a repetition level that counts the
repeated steps up to some repeated one, the root among them, shares the steps up to it
(`Pattern.sharedSteps_of_split`). A pattern is short enough for 16-bit levels to count its steps.

Levels that a pattern admits (`Pattern.Admits`) count steps as well, whether or not an entry with
them can follow the one before it: they always have a node at the root, and one at the leaf just if
the definition level is the greatest. -/

namespace WireColumns

namespace Repetition

/-- Whether a step counts for definition levels. -/
def isDefining (step : Repetition) : Bool := step != .required

/-- Whether a step counts for repetition levels. -/
def isRepeated (step : Repetition) : Bool := step == .repeated

end Repetition

namespace Pattern

open Repetition

variable {p : Pattern} {above below : List Repetition} {step : Repetition} {d m : Nat}

/-! ## The greatest levels -/

theorem exists_steps_eq (p : Pattern) : ∃ below, p.steps = .repeated :: below := by
  have h := p.root_repeated
  cases hs : p.steps with
  | nil => simp [hs] at h
  | cons root below =>
    obtain rfl : root = .repeated := by simpa [hs] using h
    exact ⟨below, rfl⟩

/-- The number of steps of a pattern is a level. -/
theorem maxSteps_lt : maxSteps < 2 ^ 15 := by decide

theorem countP_steps_lt (p : Pattern) (counts : Repetition → Bool) :
    p.steps.countP counts < 2 ^ 15 :=
  Nat.lt_of_le_of_lt (Nat.le_trans List.countP_le_length p.length_le) maxSteps_lt

theorem countP_steps_pos (p : Pattern) (counts : Repetition → Bool)
    (h : counts .repeated = true) : 0 < p.steps.countP counts := by
  obtain ⟨below, hp⟩ := p.exists_steps_eq
  rw [hp, List.countP_cons_of_pos h]
  exact Nat.succ_pos _

theorem length_steps_pos (p : Pattern) : 0 < p.steps.length :=
  Nat.lt_of_lt_of_le (p.countP_steps_pos isRepeated rfl) List.countP_le_length

theorem levelOf_eq (p : Pattern) {counts : Repetition → Bool} (h : counts .repeated = true) :
    p.levelOf counts = Int16.ofNat (p.steps.countP counts - 1) := by
  rw [Int16.ofNat_sub _ _ (p.countP_steps_pos counts h)]
  rfl

theorem maxDefinition_eq (p : Pattern) :
    p.maxDefinition = Int16.ofNat (p.steps.countP isDefining - 1) := p.levelOf_eq rfl

theorem maxRepetition_eq (p : Pattern) :
    p.maxRepetition = Int16.ofNat (p.steps.countP isRepeated - 1) := p.levelOf_eq rfl

/-! ## Definition levels -/

theorem definedSteps_max (hd : p.steps.countP isDefining = d + 1) :
    p.definedSteps (Int16.ofNat d) = p.steps.length := by
  rw [definedSteps, if_neg]
  rw [maxDefinition_eq, hd]
  exact fun h => Int16.lt_irrefl h.2

theorem definedFrom_le (definition nonRequired : Int16) (passed : Nat) (steps : List Repetition) :
    definedFrom definition nonRequired passed steps ≤ passed + steps.length := by
  induction steps generalizing nonRequired passed with
  | nil => exact Nat.le_refl _
  | cons step steps ih =>
    rw [definedFrom, List.length_cons]
    generalize (if step = .required then nonRequired else nonRequired + 1) = counted
    split
    · omega
    · exact Nat.le_trans (ih ..) (by omega)

theorem definedSteps_le (p : Pattern) (definition : Int16) :
    p.definedSteps definition ≤ p.steps.length := by
  unfold definedSteps
  split
  · exact Nat.le_trans (definedFrom_le ..) (by omega)
  · exact Nat.le_refl _

theorem le_definedFrom (definition nonRequired : Int16) (passed : Nat) (steps : List Repetition) :
    passed ≤ definedFrom definition nonRequired passed steps := by
  induction steps generalizing nonRequired passed with
  | nil => exact Nat.le_refl _
  | cons step steps ih =>
    rw [definedFrom]
    generalize (if step = .required then nonRequired else nonRequired + 1) = counted
    split
    · exact Nat.le_refl _
    · exact Nat.le_trans (Nat.le_succ _) (ih ..)

theorem lt_definedFrom_iff {steps : List Repetition} {i : Nat}
    (hcount : m + steps.countP isDefining < 2 ^ 15) (hd : d + 1 < 2 ^ 15)
    (hi : i < steps.length) (passed : Nat) :
    passed + i < definedFrom (Int16.ofNat d) (Int16.ofNat m) passed steps ↔
      m + (steps.take (i + 1)).countP isDefining ≤ d + 1 := by
  induction steps generalizing m passed i with
  | nil => cases hi
  | cons step steps ih =>
    have hcounted : (if step = .required then Int16.ofNat m else Int16.ofNat m + 1) =
        Int16.ofNat (m + if isDefining step then 1 else 0) := by
      cases step
      · rfl
      · exact (Int16.ofNat_add m 1).symm
      · exact (Int16.ofNat_add m 1).symm
    have hsucc : Int16.ofNat d + 1 = Int16.ofNat (d + 1) := (Int16.ofNat_add d 1).symm
    rw [List.countP_cons, Nat.add_comm (steps.countP _), ← Nat.add_assoc] at hcount
    rw [List.take_succ_cons, List.countP_cons, Nat.add_comm (List.countP _ _), ← Nat.add_assoc,
      definedFrom, hcounted, hsucc]
    generalize m + (if isDefining step then 1 else 0) = m' at hcount ⊢
    have hlt : Int16.ofNat (d + 1) < Int16.ofNat m' ↔ d + 1 < m' :=
      Int16.ofNat_lt_iff_lt hd (by omega)
    split
    next hdeep =>
      have := hlt.1 hdeep
      omega
    next hdeep =>
      have := mt hlt.2 hdeep
      cases i with
      | zero =>
        have := le_definedFrom (Int16.ofNat d) (Int16.ofNat m') (passed + 1) steps
        simp only [List.take_zero, List.countP_nil]
        omega
      | succ i =>
        rw [List.length_cons] at hi
        rw [← ih hcount (by omega) (passed + 1), Nat.add_right_comm, Nat.add_assoc]

/-- An entry has a node at a step if the steps up to it count for no more than its definition
level, the root aside. -/
theorem lt_definedSteps_iff {i : Nat} (hd : d < p.steps.countP isDefining)
    (hi : i < p.steps.length) :
    i < p.definedSteps (Int16.ofNat d) ↔ (p.steps.take (i + 1)).countP isDefining ≤ d + 1 := by
  have hlt := p.countP_steps_lt isDefining
  by_cases hmax : p.steps.countP isDefining = d + 1
  · have htake := (List.take_sublist (i + 1) p.steps).countP_le (p := isDefining)
    rw [definedSteps_max hmax]
    omega
  · have hpos : 0 < p.maxDefinition ∧ Int16.ofNat d < p.maxDefinition := by
      rw [maxDefinition_eq]
      exact ⟨(Int16.ofNat_lt_iff_lt (a := 0) (by omega) (by omega)).2 (by omega),
        (Int16.ofNat_lt_iff_lt (by omega) (by omega)).2 (by omega)⟩
    have hiff := lt_definedFrom_iff (m := 0) (d := d) (by omega) (by omega) hi 0
    rw [Nat.zero_add, Nat.zero_add] at hiff
    rw [definedSteps, if_pos hpos]
    exact hiff

theorem definedSteps_of_split (hp : p.steps = above ++ step :: below)
    (hstep : step.isDefining = true) (hd : above.countP isDefining = d + 1) :
    p.definedSteps (Int16.ofNat d) = above.length := by
  have hlength : above.length < p.steps.length := by
    rw [hp, List.length_append, List.length_cons]
    omega
  have hcount : d + 1 < p.steps.countP isDefining := by
    rw [hp, List.countP_append, List.countP_cons_of_pos hstep]
    omega
  have hstop : ¬ above.length < p.definedSteps (Int16.ofNat d) := by
    rw [lt_definedSteps_iff (by omega) hlength, hp, List.take_length_add_append,
      List.take_succ_cons, List.take_zero, List.countP_append, List.countP_singleton, if_pos hstep]
    omega
  have hreach : ∀ i < above.length, i < p.definedSteps (Int16.ofNat d) := by
    intro i hi
    have htake := (List.take_sublist (i + 1) above).countP_le (p := isDefining)
    rw [lt_definedSteps_iff (by omega) (by omega), hp,
      List.take_append_of_le_length (Nat.succ_le_of_lt hi)]
    exact hd ▸ htake
  exact Nat.le_antisymm (Nat.not_lt.1 hstop)
    (Nat.not_lt.1 fun hlt => Nat.lt_irrefl _ (hreach _ hlt))

/-! ## Repetition levels -/

@[simp] theorem sharedFrom_zero (passed : Nat) (steps : List Repetition) :
    sharedFrom 0 passed steps = passed := by
  cases steps with
  | nil => rfl
  | cons step steps => rw [sharedFrom, if_neg (by decide)]

theorem sharedSteps_zero (p : Pattern) : p.sharedSteps (Int16.ofNat 0) = 0 := by
  unfold sharedSteps
  split
  · exact sharedFrom_zero 0 p.steps
  · rfl

theorem sharedFrom_le (unwind : Int16) (passed : Nat) (steps : List Repetition) :
    sharedFrom unwind passed steps ≤ passed + steps.length := by
  induction steps generalizing unwind passed with
  | nil => exact Nat.le_refl _
  | cons step steps ih =>
    rw [sharedFrom, List.length_cons]
    split
    · exact Nat.le_trans (ih ..) (by omega)
    · omega

theorem sharedSteps_le (p : Pattern) (repetition : Int16) :
    p.sharedSteps repetition ≤ p.steps.length := by
  unfold sharedSteps
  split
  · exact Nat.le_trans (sharedFrom_le ..) (by omega)
  · exact Nat.zero_le _

theorem le_sharedFrom (unwind : Int16) (passed : Nat) (steps : List Repetition) :
    passed ≤ sharedFrom unwind passed steps := by
  induction steps generalizing unwind passed with
  | nil => exact Nat.le_refl _
  | cons step steps ih =>
    rw [sharedFrom]
    split
    · exact Nat.le_trans (Nat.le_succ _) (ih ..)
    · exact Nat.le_refl _

theorem lt_sharedFrom_iff {steps : List Repetition} {r i : Nat} (hr : r < 2 ^ 15)
    (hi : i < steps.length) (passed : Nat) :
    passed + i < sharedFrom (Int16.ofNat r) passed steps ↔
      (steps.take i).countP isRepeated < r := by
  induction steps generalizing r passed i with
  | nil => cases hi
  | cons step steps ih =>
    have hpos : 0 < Int16.ofNat r ↔ 0 < r := Int16.ofNat_lt_iff_lt (a := 0) (by omega) hr
    rw [sharedFrom]
    split
    next hr0 =>
      rw [hpos] at hr0
      have hunwind : (if step = .repeated then Int16.ofNat r - 1 else Int16.ofNat r) =
          Int16.ofNat (r - if isRepeated step then 1 else 0) := by
        cases step
        · rfl
        · rfl
        · exact (Int16.ofNat_sub r 1 (by omega)).symm
      cases i with
      | zero =>
        have := le_sharedFrom (if step = .repeated then Int16.ofNat r - 1 else Int16.ofNat r)
          (passed + 1) steps
        simp only [List.take_zero, List.countP_nil]
        omega
      | succ i =>
        rw [List.length_cons] at hi
        have hstep := ih (r := r - if isRepeated step then 1 else 0) (i := i) (by omega)
          (by omega) (passed + 1)
        rw [hunwind, List.take_succ_cons, List.countP_cons, ← Nat.add_assoc, Nat.add_right_comm,
          hstep]
        split <;> omega
    next hr0 =>
      rw [hpos] at hr0
      omega

/-- An entry shares a step with the entry before it if fewer repeated steps lie in front of the step
than its repetition level counts. -/
theorem lt_sharedSteps_iff {r i : Nat} (hr : r < p.steps.countP isRepeated)
    (hi : i < p.steps.length) :
    i < p.sharedSteps (Int16.ofNat r) ↔ (p.steps.take i).countP isRepeated < r := by
  have hlt := p.countP_steps_lt isRepeated
  have hpos : 0 < p.maxRepetition ↔ 1 < p.steps.countP isRepeated := by
    rw [maxRepetition_eq]
    exact (Int16.ofNat_lt_iff_lt (a := 0) (by omega) (by omega)).trans (by omega)
  unfold sharedSteps
  split
  next =>
    have hiff := lt_sharedFrom_iff (r := r) (by omega) hi 0
    rwa [Nat.zero_add] at hiff
  next hmax =>
    rw [hpos] at hmax
    omega

theorem sharedSteps_of_split (hp : p.steps = above ++ .repeated :: below)
    (hbelow : .repeated ∈ below) :
    p.sharedSteps (Int16.ofNat (above.countP isRepeated + 1)) = above.length + 1 := by
  have hcount : above.countP isRepeated + 1 < p.steps.countP isRepeated := by
    have hpos : 1 ≤ below.countP isRepeated := List.countP_pos_iff.2 ⟨_, hbelow, rfl⟩
    rw [hp, List.countP_append, List.countP_cons_of_pos rfl]
    omega
  have hlength : above.length + 1 < p.steps.length := by
    rw [hp, List.length_append, List.length_cons]
    have := List.length_pos_of_mem hbelow
    omega
  have hstop : ¬ above.length + 1 < p.sharedSteps (Int16.ofNat (above.countP isRepeated + 1)) := by
    rw [lt_sharedSteps_iff hcount hlength, hp, List.take_length_add_append, List.take_succ_cons,
      List.take_zero, List.countP_append]
    exact Nat.lt_irrefl _
  have hreach : ∀ i < above.length + 1,
      i < p.sharedSteps (Int16.ofNat (above.countP isRepeated + 1)) := by
    intro i hi
    have htake := (List.take_sublist i above).countP_le (p := isRepeated)
    rw [lt_sharedSteps_iff hcount (by omega), hp,
      List.take_append_of_le_length (Nat.le_of_lt_succ hi)]
    exact Nat.lt_succ_of_le htake
  exact Nat.le_antisymm (Nat.not_lt.1 hstop)
    (Nat.not_lt.1 fun hlt => Nat.lt_irrefl _ (hreach _ hlt))

/-- The last repeated step in front of a step. -/
theorem exists_last_repeated {steps : List Repetition} {i r : Nat}
    (hcount : (steps.take i).countP isRepeated = r + 1) :
    ∃ j < i, steps[j]? = some .repeated ∧ (steps.take j).countP isRepeated = r := by
  induction i with
  | zero => simp at hcount
  | succ i ih =>
    rw [List.take_add_one, List.countP_append] at hcount
    by_cases hstep : steps[i]? = some .repeated
    · rw [hstep] at hcount
      exact ⟨i, Nat.lt_succ_self i, hstep, Nat.succ.inj hcount⟩
    · have hzero : steps[i]?.toList.countP isRepeated = 0 := by
        cases hs : steps[i]? with
        | none => rfl
        | some step =>
          rw [hs] at hstep
          cases step with
          | repeated => exact absurd rfl hstep
          | required | optional => rfl
      rw [hzero] at hcount
      obtain ⟨j, hj, hrepeated, hr⟩ := ih hcount
      exact ⟨j, Nat.lt_succ_of_lt hj, hrepeated, hr⟩

/-! ## Admitted levels -/

/-- The levels of an entry are among those that a pattern has. -/
structure Admits (p : Pattern) (e : Int16 × Int16) : Prop where
  definition_nonneg : 0 ≤ e.1
  definition_le : e.1 ≤ p.maxDefinition
  repetition_nonneg : 0 ≤ e.2
  repetition_le : e.2 ≤ p.maxRepetition

instance (p : Pattern) (e : Int16 × Int16) : Decidable (p.Admits e) :=
  decidable_of_iff ((0 ≤ e.1 ∧ e.1 ≤ p.maxDefinition) ∧ 0 ≤ e.2 ∧ e.2 ≤ p.maxRepetition)
    ⟨fun h => ⟨h.1.1, h.1.2, h.2.1, h.2.2⟩,
      fun h => ⟨⟨h.definition_nonneg, h.definition_le⟩, h.repetition_nonneg, h.repetition_le⟩⟩

theorem exists_ofNat_eq {level : Int16} {n : Nat} (hnonneg : 0 ≤ level)
    (hle : level ≤ Int16.ofNat n) (hn : n < 2 ^ 15) : ∃ m ≤ n, level = Int16.ofNat m := by
  rw [Int16.le_iff_toInt_le] at hnonneg hle
  rw [Int16.toInt_ofNat_of_lt hn] at hle
  change 0 ≤ level.toInt at hnonneg
  refine ⟨level.toInt.toNat, by omega, ?_⟩
  rw [← Int16.toInt_inj, Int16.toInt_ofNat_of_lt (by omega)]
  omega

section

variable {e : Int16 × Int16} (h : p.Admits e)
include h

/-- Admitted levels count steps. -/
theorem Admits.exists_levels : ∃ d r, d < p.steps.countP isDefining ∧
    r < p.steps.countP isRepeated ∧ e = (Int16.ofNat d, Int16.ofNat r) := by
  have hdefining := p.countP_steps_lt isDefining
  have hrepeated := p.countP_steps_lt isRepeated
  obtain ⟨d, hd, heq⟩ := exists_ofNat_eq h.definition_nonneg (p.maxDefinition_eq ▸ h.definition_le)
    (by omega)
  obtain ⟨r, hr, heq'⟩ := exists_ofNat_eq h.repetition_nonneg
    (p.maxRepetition_eq ▸ h.repetition_le) (by omega)
  have := p.countP_steps_pos isDefining rfl
  have := p.countP_steps_pos isRepeated rfl
  exact ⟨d, r, by omega, by omega, Prod.ext heq heq'⟩

/-- With an admitted level an entry has a node at the root. -/
theorem Admits.definedSteps_pos : 0 < p.definedSteps e.1 := by
  obtain ⟨below, hp⟩ := p.exists_steps_eq
  obtain ⟨d, r, hd, -, rfl⟩ := h.exists_levels
  rw [lt_definedSteps_iff hd p.length_steps_pos, hp, List.take_succ_cons, List.take_zero]
  exact Nat.le_add_left ..

/-- Only an entry that begins a record does not share the root. -/
theorem Admits.sharedSteps_eq_zero_iff : p.sharedSteps e.2 = 0 ↔ e.2 = 0 := by
  obtain ⟨d, r, -, hr, rfl⟩ := h.exists_levels
  have hshared := lt_sharedSteps_iff (i := 0) hr p.length_steps_pos
  have hlt := p.countP_steps_lt isRepeated
  have hzero : Int16.ofNat r = 0 ↔ r = 0 := by
    rw [← Int16.toInt_inj, Int16.toInt_ofNat_of_lt (by omega)]
    exact Int.natCast_eq_zero
  rw [List.take_zero, List.countP_nil] at hshared
  rw [hzero]
  change p.sharedSteps (Int16.ofNat r) = 0 ↔ r = 0
  omega

/-- Only with the greatest definition level an entry has a node at the leaf. -/
theorem Admits.lt_definedSteps_leaf_iff :
    p.steps.length - 1 < p.definedSteps e.1 ↔ e.1 = p.maxDefinition := by
  obtain ⟨d, r, hd, -, rfl⟩ := h.exists_levels
  have hpos := p.length_steps_pos
  have hlt := p.countP_steps_lt isDefining
  rw [lt_definedSteps_iff hd (by omega), Nat.sub_add_cancel hpos, List.take_length,
    maxDefinition_eq, ← Int16.toInt_inj, Int16.toInt_ofNat_of_lt (by omega),
    Int16.toInt_ofNat_of_lt (by omega)]
  omega

/-- No entry shares the last repeated step. -/
theorem Admits.exists_repeated : ∃ j, p.steps[j]? = some .repeated ∧ p.sharedSteps e.2 ≤ j := by
  obtain ⟨d, r, -, hr, rfl⟩ := h.exists_levels
  have hcount : (p.steps.take p.steps.length).countP isRepeated =
      p.steps.countP isRepeated - 1 + 1 := by
    rw [List.take_length]
    omega
  obtain ⟨j, hj, hrepeated, hlast⟩ := exists_last_repeated hcount
  refine ⟨j, hrepeated, Nat.not_lt.1 ?_⟩
  rw [lt_sharedSteps_iff hr hj, hlast]
  omega

end

end Pattern

end WireColumns
