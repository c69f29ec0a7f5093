import WireColumns.Proofs.Nesting.Counting
import WireColumns.Proofs.Nesting.Reconstruction
import WireColumns.Proofs.Nesting.Stacking

/-! # Entries of shredded records

The entries of shredded records can be added, whatever the pattern: an entry shares no more steps
with the entry before it than that one has nodes at (`ParentLists.run_shred`), and such entries are
never refused (`ParentLists.addAll_linked`). -/

namespace WireColumns

open Nested

namespace Pattern

variable {p : Pattern} {above below : List Repetition} {d r : Nat}

theorem Place.length_le (h : p.Place above below d r) : above.length ≤ p.steps.length := by
  rw [h.steps_eq, List.length_append]
  exact Nat.le_add_right ..

theorem Place.lt_countP_defining (h : p.Place above below d r) :
    d < p.steps.countP Repetition.isDefining := by
  rw [h.steps_eq, List.countP_append, h.countP_defining]
  omega

theorem Place.lt_countP_repeated (h : p.Place above below d r) :
    r < p.steps.countP Repetition.isRepeated := by
  rw [h.steps_eq, List.countP_append, h.countP_repeated]
  omega

/-- An entry that has a node at the place has nodes at all steps above it. -/
theorem Place.le_definedSteps (h : p.Place above below d r) {definition : Nat}
    (hd : d ≤ definition) (hlt : definition < p.steps.countP Repetition.isDefining) :
    above.length ≤ p.definedSteps (Int16.ofNat definition) := by
  have hpos := List.length_pos_iff.2 h.above_ne_nil
  have hlast : above.length - 1 < p.definedSteps (Int16.ofNat definition) := by
    have hlength := h.length_le
    rw [lt_definedSteps_iff hlt (by omega), Nat.sub_add_cancel hpos, h.steps_eq, List.take_left,
      h.countP_defining]
    omega
  omega

/-- A further child at the place shares none but the steps above it. -/
theorem Place.sharedSteps_le (h : p.Place above below d r) {repetition : Nat}
    (hr : repetition ≤ r + 1) (hlt : repetition < p.steps.countP Repetition.isRepeated) :
    p.sharedSteps (Int16.ofNat repetition) ≤ above.length := by
  by_contra hdeep
  have hlength := p.sharedSteps_le (Int16.ofNat repetition)
  rw [Nat.not_le, lt_sharedSteps_iff hlt (by omega), h.steps_eq, List.take_left,
    h.countP_repeated] at hdeep
  omega

end Pattern

namespace ParentLists

/-- The second entry can be added behind the first: all that it shares is there. -/
def Linked (p : Pattern) (e e' : Int16 × Int16) : Prop := p.sharedSteps e'.2 ≤ p.definedSteps e.1

theorem addAll_linked {entries : List (Int16 × Int16)} {l : ParentLists} (hl : Sound l)
    (hfirst : ∀ e ∈ entries.head?, ∀ i < l.pattern.sharedSteps e.2, parentsAt l.lists i ≠ [])
    (hlinked : entries.IsChain (Linked l.pattern)) : ∃ l', addAll entries l = .ok () l' := by
  induction entries generalizing l with
  | nil => exact ⟨l, rfl⟩
  | cons e entries ih =>
    have hshared : ∀ i < l.pattern.sharedSteps e.2, parentsAt l.lists i ≠ [] := hfirst e rfl
    have hc : l.Continues e.1 e.2 := fun _ hzero => hshared _ (by omega)
    obtain ⟨l₁, hadd, hext⟩ := add_eq_ok hl.size_eq hc
    have hthere : ∀ i < l.pattern.definedSteps e.1, parentsAt l₁.lists i ≠ [] := by
      intro i hi
      by_cases hle : l.pattern.sharedSteps e.2 ≤ i
      · exact hext.opened_ne_nil hle hi
      · have hpos := List.length_pos_iff.2 (hshared i (Nat.lt_of_not_le hle))
        exact List.length_pos_iff.1 (Nat.lt_of_lt_of_le hpos (hext.length_le i))
    rw [List.isChain_cons] at hlinked
    have hnext : ∀ e' ∈ entries.head?, ∀ i < l₁.pattern.sharedSteps e'.2,
        parentsAt l₁.lists i ≠ [] := by
      rw [hext.pattern_eq]
      exact fun e' he' i hi => hthere i (Nat.lt_of_lt_of_le hi (hlinked.1 e' he'))
    obtain ⟨l', hall⟩ := ih (hl.of_extends hext hc) hnext (hext.pattern_eq ▸ hlinked.2)
    exact ⟨l', by rw [addAll_cons, hadd]; exact hall⟩

/-- Where there are no nodes yet, the first entry has to begin at the root. -/
theorem addAll_empty {p : Pattern} {entries : List (Int16 × Int16)}
    (hfirst : ∀ e ∈ entries.head?, e.2 = 0) (hlinked : entries.IsChain (Linked p)) :
    ∃ nodes, addAll entries (.empty p) = .ok () nodes := by
  refine addAll_linked (sound_empty p) (fun e he i hi => ?_) hlinked
  have hshared : p.sharedSteps e.2 = 0 := by
    rw [hfirst e he]
    exact p.sharedSteps_zero
  change i < p.sharedSteps e.2 at hi
  rw [hshared] at hi
  cases hi

theorem addLevels_of_addAll {α : Type} {levels : α → Int16 × Int16} {xs : List α}
    {l l' : ParentLists} (h : addAll (xs.map levels) l = .ok () l') :
    addLevels (xs.map fun x => (levels x).1) (xs.map fun x => (levels x).2) l = .ok () l' := by
  have hlevels : (xs.map fun x => (levels x).1).zip (xs.map fun x => (levels x).2) =
      xs.map levels := List.zip_map'
  rw [addLevels, if_neg (by simp), hlevels, h]

/-! ## Shredded records -/

/-- Entries that can be added one behind the other, with nodes down to definition level `d`. The
first one has the repetition level `lead`. -/
structure Run (p : Pattern) (d lead : Nat) (entries : List (Nat × Nat)) : Prop where
  lead_eq : ∀ e ∈ entries.head?, e.2 = lead
  le_definition : ∀ e ∈ entries, d ≤ e.1
  definition_lt : ∀ e ∈ entries, e.1 < p.steps.countP Repetition.isDefining
  repetition_lt : ∀ e ∈ entries, e.2 < p.steps.countP Repetition.isRepeated
  linked : (entries.map levels).IsChain (Linked p)

variable {p : Pattern} {above below : List Repetition} {d d' r lead lead' : Nat}
  {es es' : List (Nat × Nat)}

theorem Run.mono (h : Run p d lead es) (hd : d' ≤ d) : Run p d' lead es :=
  { h with le_definition := fun e he => Nat.le_trans hd (h.le_definition e he) }

theorem run_singleton (hd : d < p.steps.countP Repetition.isDefining)
    (hlead : lead < p.steps.countP Repetition.isRepeated) : Run p d lead [(d, lead)] := by
  refine ⟨?_, ?_, ?_, ?_, List.isChain_singleton _⟩
  · rintro e ⟨⟩
    rfl
  · exact List.forall_mem_singleton.2 (Nat.le_refl d)
  · exact List.forall_mem_singleton.2 hd
  · exact List.forall_mem_singleton.2 hlead

theorem Run.append (h : Run p d lead es) (h' : Run p d lead' es') (hne : es ≠ [])
    (hshared : ∀ e ∈ es,
      p.sharedSteps (Int16.ofNat lead') ≤ p.definedSteps (Int16.ofNat e.1)) :
    Run p d lead (es ++ es') := by
  refine ⟨?_, ?_, ?_, ?_, ?_⟩
  · rw [List.head?_append_of_ne_nil _ hne]
    exact h.lead_eq
  · exact List.forall_mem_append.2 ⟨h.le_definition, h'.le_definition⟩
  · exact List.forall_mem_append.2 ⟨h.definition_lt, h'.definition_lt⟩
  · exact List.forall_mem_append.2 ⟨h.repetition_lt, h'.repetition_lt⟩
  · rw [List.map_append, List.isChain_append]
    refine ⟨h.linked, h'.linked, ?_⟩
    rw [List.head?_map, List.getLast?_map]
    intro x hx y hy
    obtain ⟨e, he, rfl⟩ := Option.mem_map.1 hx
    obtain ⟨e', he', rfl⟩ := Option.mem_map.1 hy
    change p.sharedSteps (Int16.ofNat e'.2) ≤ _
    rw [h'.lead_eq e' he']
    exact hshared e (List.mem_of_getLast? he)

theorem Run.flatMap {α : Type} {f : α → List (Nat × Nat)} {as : List α}
    (h : Run p d lead es) (hne : es ≠ []) (hf : ∀ a ∈ as, Run p d lead' (f a))
    (hshared : ∀ definition, d ≤ definition → definition < p.steps.countP Repetition.isDefining →
      p.sharedSteps (Int16.ofNat lead') ≤ p.definedSteps (Int16.ofNat definition)) :
    Run p d lead (es ++ as.flatMap f) := by
  induction as generalizing es with
  | nil => rwa [List.flatMap_nil, List.append_nil]
  | cons a as ih =>
    rw [List.forall_mem_cons] at hf
    rw [List.flatMap_cons, ← List.append_assoc]
    refine ih (h.append hf.1 hne fun e he => ?_) (List.append_ne_nil_of_left_ne_nil hne _) hf.2
    exact hshared e.1 (h.le_definition e he) (h.definition_lt e he)

theorem shredFrom_ne_nil {steps : List Repetition} (d r lead : Nat) (node : Nested steps) :
    shredFrom steps d r lead node ≠ [] := by
  obtain ⟨definition, rest, hshred, -⟩ := shredFrom_eq_cons d r lead node
  rw [hshred]
  exact List.cons_ne_nil _ _

theorem run_shredFrom (h : p.Place above below d r) (hlead : lead ≤ r) (node : Nested below) :
    Run p d lead (shredFrom below d r lead node) := by
  induction below generalizing above d r lead with
  | nil =>
    exact run_singleton h.lt_countP_defining (Nat.lt_of_le_of_lt hlead h.lt_countP_repeated)
  | cons step below ih =>
    rw [shredFrom]
    split
    next =>
      exact run_singleton h.lt_countP_defining (Nat.lt_of_le_of_lt hlead h.lt_countP_repeated)
    next child others hchildren =>
      have hd := le_nextDefinition d step
      have hchild := (ih h.next (Nat.le_trans hlead (le_nextRepetition r step)) child).mono hd
      have hothers : ∀ other ∈ others, Run p d (nextRepetition r step)
          (shredFrom below (nextDefinition d step) (nextRepetition r step)
            (nextRepetition r step) other) := fun other _ =>
        (ih h.next (Nat.le_refl _) other).mono hd
      refine hchild.flatMap (shredFrom_ne_nil _ _ _ _) hothers fun definition hle hlt => ?_
      exact Nat.le_trans (h.sharedSteps_le (nextRepetition_le r step) h.next.lt_countP_repeated)
        (h.le_definedSteps hle hlt)

/-- The entries of shredded records can be added one behind the other. -/
theorem run_shred {steps : List Repetition} (hsteps : p.steps = steps) (records : Nested steps) :
    Run p 0 0 (shred steps records) := by
  obtain ⟨below, hroot⟩ := p.exists_steps_eq
  obtain rfl : steps = .repeated :: below := hsteps.symm.trans hroot
  have hrecord : ∀ record ∈ records.children, Run p 0 0 (shredFrom below 0 0 0 record) :=
    fun record _ => run_shredFrom (Pattern.place_root hsteps) (Nat.le_refl 0) record
  rw [shred]
  cases hchildren : records.children with
  | nil => exact ⟨by simp, by simp, by simp, by simp, .nil⟩
  | cons record others =>
    rw [hchildren, List.forall_mem_cons] at hrecord
    refine hrecord.1.flatMap (shredFrom_ne_nil _ _ _ _) hrecord.2 fun definition _ _ => ?_
    rw [p.sharedSteps_zero]
    exact Nat.zero_le _

/-- The first entry of shredded records begins at the root. -/
theorem head_shred (p : Pattern) (records : Nested p.steps) :
    ∀ e ∈ ((shred p.steps records).map levels).head?, e.2 = 0 := by
  rw [List.head?_map]
  intro e he
  obtain ⟨entry, hentry, rfl⟩ := Option.mem_map.1 he
  rw [levels, (run_shred rfl records).lead_eq entry hentry]
  rfl

theorem exists_addAll_shred (p : Pattern) (records : Nested p.steps) :
    ∃ nodes, addAll ((shred p.steps records).map levels) (.empty p) = .ok () nodes :=
  addAll_empty (head_shred p records) (run_shred rfl records).linked

end ParentLists

end WireColumns
