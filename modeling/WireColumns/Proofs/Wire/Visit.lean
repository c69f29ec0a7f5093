import Mathlib
import WireColumns.Proofs.Results
import WireColumns.Wire.Field

/-! # Passing over occurrences

What a visitor does at one occurrence carries over to a whole walk: two visitors that end alike at
every occurrence end alike on every walk (`Walk.visit_agree`), and what a visitor preserves at
every occurrence is preserved by every walk, whether it succeeds or fails
(`Walk.visit_preserves`). -/

namespace WireColumns

variable {σ τ : Type}

namespace Walk

theorem visit_nil (ending : Ending) (v : Field → EStateM Corruption σ Unit) :
    visit ⟨[], ending⟩ v =
      match ending with
      | .complete => pure ()
      | .malformed e => throw e
      | .badPayload f e => v f >>= fun _ => throw e := by
  cases ending <;> rfl

theorem visit_cons (f : Field) (fields : List Field) (ending : Ending)
    (v : Field → EStateM Corruption σ Unit) :
    visit ⟨f :: fields, ending⟩ v = v f >>= fun _ => visit ⟨fields, ending⟩ v := by
  simp only [visit, List.forM_eq_forM, List.forM_cons, bind_assoc]

theorem visit_append (fields more : List Field) (ending : Ending)
    (v : Field → EStateM Corruption σ Unit) :
    visit ⟨fields ++ more, ending⟩ v =
      visit ⟨fields, .complete⟩ v >>= fun _ => visit ⟨more, ending⟩ v := by
  induction fields with
  | nil => rw [visit_nil, pure_bind, List.nil_append]
  | cons f fields ih => rw [List.cons_append, visit_cons, visit_cons, ih, bind_assoc]

variable {R : σ → τ → Prop} {v : Field → EStateM Corruption σ Unit}
  {w : Field → EStateM Corruption τ Unit}

theorem ending_of_visit_ok {walk : Walk} {s s' : σ} (h : walk.visit v s = .ok () s') :
    walk.ending = .complete := by
  obtain ⟨fields, ending⟩ := walk
  induction fields generalizing s with
  | nil =>
    rw [visit_nil] at h
    cases ending with
    | complete => rfl
    | malformed e => cases h
    | badPayload f e =>
      simp only [bind, EStateM.bind] at h
      split at h <;> cases h
  | cons f fields ih =>
    rw [visit_cons] at h
    simp only [bind, EStateM.bind] at h
    split at h
    next => exact ih h
    next => cases h

/-- Visitors that end alike at every occurrence end alike on a walk. -/
theorem visit_agree (walk : Walk) (step : ∀ f s t, R s t → Agree R (v f s) (w f t))
    {s : σ} {t : τ} (h : R s t) : Agree R (walk.visit v s) (walk.visit w t) := by
  obtain ⟨fields, ending⟩ := walk
  induction fields generalizing s t with
  | nil =>
    rw [visit_nil, visit_nil]
    cases ending with
    | complete => exact .ok h
    | malformed e => exact .error h
    | badPayload f e => exact (step f s t h).bind fun _ _ h => .error h
  | cons f fields ih =>
    rw [visit_cons, visit_cons]
    exact (step f s t h).bind fun _ _ h => ih h

/-- What a visitor preserves at every occurrence, a walk preserves. -/
theorem visit_preserves {P : σ → Prop} (walk : Walk)
    (step : ∀ f s, P s → P (finalState (v f s))) {s : σ} (h : P s) :
    P (finalState (walk.visit v s)) := by
  refine agree_self_iff.1 (visit_agree walk (fun f s t hst => ?_) ⟨rfl, h⟩)
  obtain ⟨rfl, hs⟩ := hst
  exact agree_self_iff.2 (step f s hs)

end Walk

end WireColumns
