import Mathlib
import WireColumns.Proofs.Nesting.Records
import WireColumns.Proofs.Nesting.Levels

/-! # Counting the entries of shredded records

How many entries there are for the nodes some steps down (`Nested.descend`). The first entry of a
node has a repetition level that counts steps above the node, and all others one that counts steps
below it (`Nested.shredFrom_eq_cons`); those of them that go on with the uppermost list below the
node are as many as that list has elements behind its first one (`Nested.countP_continuing`). Over
all nodes at a step this gives how many entries have a node there (`Nested.countP_shred_reaching`).
-/

namespace WireColumns.Nested

open Repetition

variable {step : Repetition} {below : List Repetition} {d r lead : Nat}

/-- The nodes `k` steps below some nodes. -/
def descend : (k : Nat) → (steps : List Repetition) → List (Nested steps) →
    List (Nested (steps.drop k))
  | 0, _, nodes => nodes
  | _ + 1, [], nodes => nodes
  | k + 1, _ :: below, nodes => descend k below (nodes.flatMap children)

/-- How many elements the uppermost list below a node has. It has none where an optional step above
it has no node, and where no step below the node is repeated. -/
def listLength : (steps : List Repetition) → Nested steps → Nat
  | [], _ => 0
  | .repeated :: _, node => node.children.length
  | .optional :: below, node | .required :: below, node =>
    match node.children with
    | [] => 0
    | child :: _ => listLength below child

theorem sum_listLength_eq_zero_iff {steps : List Repetition} {nodes : List (Nested steps)} :
    (nodes.map fun node => listLength steps node - 1).sum = 0 ↔
      ∀ node ∈ nodes, listLength steps node ≤ 1 := by
  rw [List.sum_eq_zero_iff_forall_eq_nat, List.forall_mem_map]
  exact forall₂_congr fun _ _ => Nat.sub_eq_zero_iff_le

/-! ## Entries of one node -/

/-- Behind its first entry, the entries of a node go on with lists below it. -/
theorem shredFrom_eq_cons {steps : List Repetition} (d r lead : Nat) (node : Nested steps) :
    ∃ definition rest, shredFrom steps d r lead node = (definition, lead) :: rest ∧
      ∀ e ∈ rest, r < e.2 := by
  induction steps generalizing d r lead with
  | nil => exact ⟨d, [], rfl, nofun⟩
  | cons step below ih =>
    rw [shredFrom]
    split
    next => exact ⟨d, [], rfl, nofun⟩
    next child others hchildren =>
      have hle := le_nextRepetition r step
      obtain ⟨definition, rest, hfirst, hrest⟩ :=
        ih (nextDefinition d step) (nextRepetition r step) lead child
      rw [hfirst]
      refine ⟨definition, _, rfl, List.forall_mem_append.2 ⟨fun e he => ?_, fun e he => ?_⟩⟩
      · exact Nat.lt_of_le_of_lt hle (hrest e he)
      · obtain ⟨other, hother, he⟩ := List.mem_flatMap.1 he
        have hstep : step = .repeated := by
          by_contra hstep
          rw [others_eq_nil hchildren hstep] at hother
          cases hother
        subst hstep
        obtain ⟨definition', rest', hfirst', hrest'⟩ :=
          ih (nextDefinition d .repeated) (nextRepetition r .repeated)
            (nextRepetition r .repeated) other
        rw [hfirst'] at he
        rcases List.mem_cons.1 he with rfl | he
        · exact Nat.lt_succ_self r
        · exact Nat.lt_of_succ_lt (hrest' e he)

theorem le_of_mem_shredFrom {steps : List Repetition} {node : Nested steps} {e : Nat × Nat}
    (he : e ∈ shredFrom steps d r lead node) : d ≤ e.1 := by
  induction steps generalizing d r lead with
  | nil =>
    rw [shredFrom, List.mem_singleton] at he
    exact Nat.le_of_eq (congrArg Prod.fst he).symm
  | cons step below ih =>
    rw [shredFrom] at he
    split at he
    next =>
      rw [List.mem_singleton] at he
      exact Nat.le_of_eq (congrArg Prod.fst he).symm
    next =>
      have hnext := le_nextDefinition d step
      rcases List.mem_append.1 he with he | he
      · exact Nat.le_trans hnext (ih he)
      · obtain ⟨other, -, he⟩ := List.mem_flatMap.1 he
        exact Nat.le_trans hnext (ih he)

/-- Only the first entry of a node does not go on with a list below it. -/
theorem countP_opening {steps : List Repetition} (hlead : lead ≤ r) (d : Nat)
    (node : Nested steps) : (shredFrom steps d r lead node).countP (·.2 ≤ r) = 1 := by
  obtain ⟨definition, rest, hshred, hrest⟩ := shredFrom_eq_cons d r lead node
  have hnone : rest.countP (fun e => decide (e.2 ≤ r)) = 0 :=
    List.countP_eq_zero.2 fun e he => by simpa using hrest e he
  rw [hshred, List.countP_cons_of_pos (by simpa using hlead), hnone]

theorem countP_of_lead {steps : List Repetition} {lead r' : Nat} (hlt : r' ≤ r) (d : Nat)
    (node : Nested steps) :
    (shredFrom steps d r lead node).countP (·.2 == r') = if lead = r' then 1 else 0 := by
  obtain ⟨definition, rest, hshred, hrest⟩ := shredFrom_eq_cons d r lead node
  have hnone : rest.countP (fun e => e.2 == r') = 0 :=
    List.countP_eq_zero.2 fun e he => by
      have := hrest e he
      simp only [beq_iff_eq]
      omega
  rw [hshred, List.countP_cons, hnone]
  simp

/-- Further nodes have one entry each that begins them. -/
theorem countP_flatMap_of_lead {steps : List Repetition} (d r : Nat)
    (others : List (Nested steps)) :
    (others.flatMap (shredFrom steps d r r)).countP (·.2 == r) = others.length := by
  induction others with
  | nil => rfl
  | cons other others ih =>
    rw [List.flatMap_cons, List.countP_append, ih, countP_of_lead (Nat.le_refl r), if_pos rfl,
      List.length_cons, Nat.add_comm]

/-- The entries that go on with the uppermost list below a node are those of its elements behind
the first. -/
theorem countP_continuing {steps : List Repetition} (hlead : lead ≤ r) (d : Nat)
    (node : Nested steps) :
    (shredFrom steps d r lead node).countP (·.2 == r + 1) = listLength steps node - 1 := by
  induction steps generalizing d lead with
  | nil =>
    simp only [shredFrom, listLength, List.countP_singleton, beq_iff_eq]
    rw [if_neg (by omega)]
  | cons step below ih =>
    have hone : ∀ definition : Nat, [(definition, lead)].countP (fun e => e.2 == r + 1) = 0 := by
      intro definition
      simp only [List.countP_singleton, beq_iff_eq]
      rw [if_neg (by omega)]
    cases hchildren : node.children with
    | nil =>
      cases step <;> simp [shredFrom, listLength, hchildren, hone]
    | cons child others =>
      cases step with
      | required | optional =>
        obtain rfl := others_eq_nil hchildren (by decide)
        simp only [shredFrom, listLength, hchildren, List.flatMap_nil, List.append_nil]
        exact ih hlead _ child
      | repeated =>
        have hr : nextRepetition r .repeated = r + 1 := rfl
        simp only [shredFrom, listLength, hchildren, hr]
        rw [List.countP_append, countP_of_lead (Nat.le_refl _), if_neg (by omega),
          countP_flatMap_of_lead, List.length_cons]
        omega

/-! ## Entries of the nodes some steps down -/

theorem descend_append (k : Nat) {steps : List Repetition} (nodes nodes' : List (Nested steps)) :
    descend k steps (nodes ++ nodes') = descend k steps nodes ++ descend k steps nodes' := by
  induction k generalizing steps with
  | zero => rfl
  | succ k ih =>
    cases steps with
    | nil => rfl
    | cons step below => rw [descend, List.flatMap_append, ih]; rfl

theorem descend_nil (k : Nat) (steps : List Repetition) : descend k steps [] = [] := by
  induction k generalizing steps with
  | zero => rfl
  | succ k ih =>
    cases steps with
    | nil => rfl
    | cons step below => exact ih below

theorem sum_descend_cons (k : Nat) {steps : List Repetition} (f : Nested (steps.drop k) → Nat)
    (node : Nested steps) (nodes : List (Nested steps)) :
    ((descend k steps (node :: nodes)).map f).sum =
      ((descend k steps [node]).map f).sum + ((descend k steps nodes).map f).sum := by
  rw [← List.singleton_append, descend_append, List.map_append, List.sum_append]

theorem add_countP_isDefining (d : Nat) (step : Repetition) (steps : List Repetition) :
    d + (step :: steps).countP isDefining = nextDefinition d step + steps.countP isDefining := by
  rw [List.countP_cons, nextDefinition]
  cases step <;> simp [isDefining, Nat.add_comm, Nat.add_left_comm]

theorem add_countP_isRepeated (r : Nat) (step : Repetition) (steps : List Repetition) :
    r + (step :: steps).countP isRepeated = nextRepetition r step + steps.countP isRepeated := by
  rw [List.countP_cons, nextRepetition]
  cases step <;> simp [isRepeated, Nat.add_comm, Nat.add_left_comm]

variable {q : Nat × Nat → Bool}

/-- The entries of several nodes are counted node by node, `k` steps down. -/
theorem countP_flatMap_descend {steps : List Repetition} {k : Nat}
    {f : Nested (steps.drop k) → Nat} {entries : Nested steps → List (Nat × Nat)}
    (nodes : List (Nested steps))
    (h : ∀ node ∈ nodes, (entries node).countP q = ((descend k steps [node]).map f).sum) :
    (nodes.flatMap entries).countP q = ((descend k steps nodes).map f).sum := by
  induction nodes with
  | nil => rw [descend_nil]; rfl
  | cons node nodes ih =>
    rw [List.forall_mem_cons] at h
    rw [List.flatMap_cons, List.countP_append, h.1, ih h.2, ← sum_descend_cons]

/-- Entries that reach a node `k` steps down are counted node by node there. -/
theorem countP_shredFrom {steps : List Repetition} {k : Nat} {f : Nested (steps.drop k) → Nat}
    (hq : ∀ e, q e → d + (steps.take k).countP isDefining ≤ e.1)
    (hf : ∀ lead ≤ r + (steps.take k).countP isRepeated, ∀ node,
      (shredFrom (steps.drop k) (d + (steps.take k).countP isDefining)
        (r + (steps.take k).countP isRepeated) lead node).countP q = f node)
    (hlead : lead ≤ r) (node : Nested steps) :
    (shredFrom steps d r lead node).countP q = ((descend k steps [node]).map f).sum := by
  induction k generalizing steps d r lead with
  | zero => exact (hf lead hlead node).trans (List.sum_singleton).symm
  | succ k ih =>
    cases steps with
    | nil => exact (hf lead hlead node).trans (List.sum_singleton).symm
    | cons step below =>
      rw [List.take_succ_cons, add_countP_isDefining] at hq hf
      rw [add_countP_isRepeated] at hf
      rw [shredFrom, descend, List.flatMap_singleton]
      cases hchildren : node.children with
      | nil =>
        -- the step is not required, so the entry is not defined down to the nodes counted
        have hnext : nextDefinition d step = d + 1 := if_neg (step_ne_required hchildren)
        have hnone : ¬ q (d, lead) := fun h => by
          have := hq _ h
          omega
        rw [descend_nil, List.countP_cons_of_neg hnone]
        rfl
      | cons child others =>
        dsimp only
        rw [List.countP_append, ih hq hf (Nat.le_trans hlead (le_nextRepetition r step)) child,
          countP_flatMap_descend others fun other _ => ih hq hf (Nat.le_refl _) other]
        exact (sum_descend_cons k f child others).symm

theorem countP_shred {steps below : List Repetition} (hroot : steps = .repeated :: below)
    {k : Nat} {f : Nested (steps.drop (k + 1)) → Nat}
    (hd : (steps.take (k + 1)).countP isDefining = d + 1)
    (hr : (steps.take (k + 1)).countP isRepeated = r + 1) (hq : ∀ e, q e → d ≤ e.1)
    (hf : ∀ lead ≤ r, ∀ node, (shredFrom (steps.drop (k + 1)) d r lead node).countP q = f node)
    (records : Nested steps) :
    (shred steps records).countP q = ((descend (k + 1) steps [records]).map f).sum := by
  subst hroot
  have htake : ∀ {counts : Repetition → Bool} {n : Nat}, counts .repeated = true →
      ((.repeated :: below).take (k + 1)).countP counts = n + 1 →
      n = 0 + (below.take k).countP counts := by
    intro counts n hcounts hn
    rw [List.take_succ_cons, List.countP_cons_of_pos hcounts] at hn
    omega
  obtain rfl := htake rfl hd
  obtain rfl := htake rfl hr
  rw [shred, descend, List.flatMap_singleton]
  exact countP_flatMap_descend records.children fun record _ =>
    countP_shredFrom hq hf (Nat.le_refl 0) record

section

variable {steps below : List Repetition} (hroot : steps = .repeated :: below) {k : Nat}
  (hd : (steps.take (k + 1)).countP isDefining = d + 1)
  (hr : (steps.take (k + 1)).countP isRepeated = r + 1) (records : Nested steps)
include hroot hd hr

/-- Each node has an entry that begins it. -/
theorem countP_shred_opening : (shred steps records).countP (fun e => d ≤ e.1 ∧ e.2 ≤ r) =
    (descend (k + 1) steps [records]).length := by
  rw [countP_shred hroot hd hr (f := fun _ => 1) (fun e he => (of_decide_eq_true he).1) ?_ records]
  · simp
  · intro lead hlead node
    refine (List.countP_congr fun e he => ?_).trans (countP_opening hlead d node)
    have := le_of_mem_shredFrom he
    simp [this]

/-- The lists below the nodes go on with an entry for each element behind the first. -/
theorem countP_shred_continuing :
    (shred steps records).countP (fun e => d ≤ e.1 ∧ e.2 = r + 1) =
      ((descend (k + 1) steps [records]).map fun node => listLength _ node - 1).sum := by
  refine countP_shred hroot hd hr (fun e he => (of_decide_eq_true he).1) ?_ records
  intro lead hlead node
  refine (List.countP_congr fun e he => ?_).trans (countP_continuing hlead d node)
  have := le_of_mem_shredFrom he
  simp [this]

/-- The entries with a node at a step that they begin, or of which they go on with a list. -/
theorem countP_shred_reaching :
    (shred steps records).countP (fun e => d ≤ e.1 ∧ e.2 ≤ r + 1) =
      (descend (k + 1) steps [records]).length +
        ((descend (k + 1) steps [records]).map fun node => listLength _ node - 1).sum := by
  rw [← countP_shred_opening hroot hd hr records, ← countP_shred_continuing hroot hd hr records]
  generalize shred steps records = entries
  induction entries with
  | nil => rfl
  | cons e entries ih =>
    simp only [List.countP_cons, ih, decide_eq_true_eq]
    split_ifs <;> omega

end

end WireColumns.Nested
