/-! # How computations on a state end

A computation on a state ends in some state, whether it succeeds or fails (`finalState`). Two of
them may end alike (`Agree`), and then go on alike if what comes next does (`Agree.bind`). What a
single computation keeps of its state is the case in which both are the same one
(`agree_self_iff`). -/

namespace WireColumns

variable {ε σ τ : Type}

/-- The state in which a computation ends, also if it fails. -/
def finalState {α : Type} : EStateM.Result ε σ α → σ
  | .ok _ s => s
  | .error _ s => s

/-- Two computations end alike: both succeed or both fail for the same reason, and the states they
end in are related. -/
inductive Agree (R : σ → τ → Prop) :
    EStateM.Result ε σ Unit → EStateM.Result ε τ Unit → Prop
  | ok {s t} : R s t → Agree R (.ok () s) (.ok () t)
  | error {e s t} : R s t → Agree R (.error e s) (.error e t)

theorem Agree.ok_or_error {R : σ → τ → Prop} {x : EStateM.Result ε σ Unit}
    {y : EStateM.Result ε τ Unit} (H : Agree R x y) :
    (∃ s t, x = .ok () s ∧ y = .ok () t) ∨ ∃ e s t, x = .error e s ∧ y = .error e t := by
  cases H with
  | ok => exact .inl ⟨_, _, rfl, rfl⟩
  | error => exact .inr ⟨_, _, _, rfl, rfl⟩

theorem Agree.bind {R : σ → τ → Prop} {m n : EStateM ε σ Unit} {m' n' : EStateM ε τ Unit} {s : σ}
    {t : τ} (H : Agree R (m s) (m' t)) (H' : ∀ s t, R s t → Agree R (n s) (n' t)) :
    Agree R ((m >>= fun _ => n) s) ((m' >>= fun _ => n') t) := by
  simp only [Bind.bind, EStateM.bind]
  generalize m s = x, m' t = y at H
  cases H with
  | ok hR => exact H' _ _ hR
  | error hR => exact .error hR

/-- A computation ends like itself, in a state with a property, just if its last state has it. -/
theorem agree_self_iff {P : σ → Prop} {x : EStateM.Result ε σ Unit} :
    Agree (fun s t => s = t ∧ P s) x x ↔ P (finalState x) := by
  constructor
  · intro H
    cases H with
    | ok h | error h => exact h.2
  · intro h
    cases x with
    | ok _ s => exact .ok ⟨rfl, h⟩
    | error e s => exact .error ⟨rfl, h⟩

end WireColumns
