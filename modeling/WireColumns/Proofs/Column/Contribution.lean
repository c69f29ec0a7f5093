import WireColumns.Proofs.Column.Delivery

/-! # What occurrences contribute

An occurrence adds its values to the collectors and is refused if one of them cannot be read
(`Collector.lookup_eq`). Neither depends on the occurrences in front of it, so a message adds the
values of all its occurrences (`Collector.visit_accepted`), or fails with the first refusal
(`Collector.exists_visit_refused`). -/

namespace WireColumns

/-- The values that an occurrence has for a field. -/
def Field.valuesFor (messageSetItems : Bool) (number : UInt32) (kind : FieldKind) (f : Field) :
    List Value :=
  match f.delivery messageSetItems with
  | .ok t => t.valuesFor number kind
  | .error _ => []

/-- What keeps collectors from taking an occurrence. -/
def Field.refusal? (messageSetItems : Bool) (cs : Array Collector) (f : Field) :
    Option Corruption :=
  match f.delivery messageSetItems with
  | .ok t => Collector.refusal? t cs
  | .error e => some e

namespace Collector

variable {cs : Array Collector} {messageSetItems : Bool} {index : Int} {fields : List Field}

theorem fieldRefusal?_congr {cs ds : Array Collector} (h : kinds cs = kinds ds)
    (messageSetItems : Bool) (f : Field) :
    f.refusal? messageSetItems cs = f.refusal? messageSetItems ds := by
  unfold Field.refusal?
  cases f.delivery messageSetItems with
  | ok t => exact refusal?_congr h t
  | error e => rfl

theorem fieldRefusal?_addAll (f : Field) (vs : UInt32 → FieldKind → List Value) :
    f.refusal? messageSetItems (addAll vs index cs) = f.refusal? messageSetItems cs :=
  fieldRefusal?_congr (kinds_addAll ..) messageSetItems f

theorem lookup_eq (hnodup : (numbers cs).Nodup) (f : Field) :
    lookup messageSetItems index f cs =
      endWith (f.refusal? messageSetItems cs) (addAll (f.valuesFor messageSetItems) index cs) := by
  unfold lookup Field.refusal? Field.valuesFor
  cases f.delivery messageSetItems with
  | ok t => exact consumeFirst_eq hnodup t index
  | error e => exact congrArg (EStateM.Result.error e) (addAll_nil index cs).symm

theorem visit_accepted (hnodup : (numbers cs).Nodup)
    (h : ∀ f ∈ fields, f.refusal? messageSetItems cs = none) :
    Walk.visit ⟨fields, .complete⟩ (lookup messageSetItems index) cs =
      .ok () (addAll (fun n k => fields.flatMap (Field.valuesFor messageSetItems n k))
        index cs) := by
  induction fields generalizing cs with
  | nil =>
    rw [Walk.visit_nil]
    exact congrArg (EStateM.Result.ok ()) (addAll_nil index cs).symm
  | cons f fields ih =>
    rw [List.forall_mem_cons] at h
    rw [Walk.visit_cons]
    simp only [bind, EStateM.bind]
    rw [lookup_eq hnodup, h.1, endWith]
    dsimp only
    rw [ih (by rwa [numbers_addAll]), addAll_addAll]
    · rfl
    · intro g hg
      rw [fieldRefusal?_addAll]
      exact h.2 g hg

theorem exists_visit_refused (hnodup : (numbers cs).Nodup) {e : Corruption}
    (h : fields.findSome? (Field.refusal? messageSetItems cs) = some e) (ending : Ending)
    (index : Int) :
    ∃ vs, Walk.visit ⟨fields, ending⟩ (lookup messageSetItems index) cs =
      .error e (addAll vs index cs) := by
  induction fields generalizing cs with
  | nil => cases h
  | cons f fields ih =>
    rw [List.findSome?_cons] at h
    rw [Walk.visit_cons]
    simp only [bind, EStateM.bind]
    rw [lookup_eq hnodup]
    cases hf : f.refusal? messageSetItems cs with
    | some e' =>
      rw [hf] at h
      cases h
      exact ⟨_, rfl⟩
    | none =>
      rw [hf] at h
      have hsame : Field.refusal? messageSetItems
          (addAll (f.valuesFor messageSetItems) index cs) = Field.refusal? messageSetItems cs :=
        funext fun g => fieldRefusal?_addAll g _
      obtain ⟨vs, hvs⟩ := ih (by rwa [numbers_addAll]) (hsame.symm ▸ h)
      exact ⟨_, hvs.trans (congrArg (EStateM.Result.error e) (addAll_addAll ..))⟩

/-- A message that is accepted is one of whose occurrences none is refused. -/
theorem refusal?_of_visit_ok (hnodup : (numbers cs).Nodup) {ending : Ending} {cs' : Array Collector}
    (h : Walk.visit ⟨fields, ending⟩ (lookup messageSetItems index) cs = .ok () cs') :
    ∀ f ∈ fields, f.refusal? messageSetItems cs = none := by
  cases hfind : fields.findSome? (Field.refusal? messageSetItems cs) with
  | none => exact List.findSome?_eq_none_iff.1 hfind
  | some e =>
    obtain ⟨vs, hvs⟩ := exists_visit_refused hnodup hfind ending index
    cases hvs.symm.trans h

end Collector

end WireColumns
