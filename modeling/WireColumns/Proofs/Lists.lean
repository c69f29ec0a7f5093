import Mathlib

/-! # Lists related one by one

What is known of two lists whose elements are related one by one, and of the list that a computation
gives which is run on the elements of another one, or on those of them for which it has a result. -/

namespace WireColumns

variable {ε α β : Type} {f : α → Except ε β} {l : List α} {l' : List β}

theorem exists_getElem?_of_forall₂ {R : α → β → Prop} {as : List α} {bs : List β}
    (h : List.Forall₂ R as bs) {i : Nat} {b : β} (hb : bs[i]? = some b) :
    ∃ a, as[i]? = some a ∧ R a b := by
  induction h generalizing i with
  | nil => cases hb
  | cons hR _ ih =>
    cases i with
    | zero =>
      obtain rfl := Option.some.inj hb
      exact ⟨_, rfl, hR⟩
    | succ i => exact ih hb

theorem exists_mem_of_forall₂ {R : α → β → Prop} {as : List α} {bs : List β}
    (h : List.Forall₂ R as bs) {b : β} (hb : b ∈ bs) : ∃ a ∈ as, R a b := by
  obtain ⟨i, hi⟩ := List.mem_iff_getElem?.1 hb
  obtain ⟨a, ha, hR⟩ := exists_getElem?_of_forall₂ h hi
  exact ⟨a, List.mem_of_getElem? ha, hR⟩

theorem forall₂_trans {γ : Type} {R : α → β → Prop} {S : β → γ → Prop} {T : α → γ → Prop}
    (htrans : ∀ {a b c}, R a b → S b c → T a c) {as : List α} {bs : List β} {cs : List γ}
    (h : List.Forall₂ R as bs) (h' : List.Forall₂ S bs cs) : List.Forall₂ T as cs := by
  induction h generalizing cs with
  | nil =>
    cases h'
    exact .nil
  | cons hR _ ih =>
    cases h' with
    | cons hS hrest => exact .cons (htrans hR hS) (ih hrest)

theorem exists_forall₂_iff {R : α → β → Prop} {as : List α} :
    (∃ bs, List.Forall₂ R as bs) ↔ ∀ a ∈ as, ∃ b, R a b := by
  induction as with
  | nil => exact iff_of_true ⟨[], .nil⟩ nofun
  | cons a as ih =>
    rw [List.forall_mem_cons, ← ih]
    constructor
    · rintro ⟨bs, h⟩
      cases h with
      | cons hb hbs => exact ⟨⟨_, hb⟩, _, hbs⟩
    · rintro ⟨⟨b, hb⟩, bs, hbs⟩
      exact ⟨b :: bs, .cons hb hbs⟩

theorem mapM_eq_ok_iff : l.mapM f = .ok l' ↔ List.Forall₂ (fun a b => f a = .ok b) l l' := by
  induction l generalizing l' with
  | nil => simp [pure, Except.pure, eq_comm]
  | cons a l ih =>
    rw [List.mapM_cons, List.forall₂_cons_left_iff]
    cases hb : f a with
    | error e => simp [bind, Except.bind]
    | ok b =>
      cases hbs : l.mapM f with
      | error e =>
        have hnone : ∀ bs, ¬ List.Forall₂ (fun a b => f a = .ok b) l bs := fun bs h => by
          rw [ih.2 h] at hbs
          cases hbs
        simp [bind, Except.bind, hnone]
      | ok bs => simp [bind, Except.bind, pure, Except.pure, ← ih, hbs, eq_comm]

theorem exists_mapM_eq_ok (h : ∀ a ∈ l, ∃ b, f a = .ok b) : ∃ l', l.mapM f = .ok l' := by
  induction l with
  | nil => exact ⟨[], rfl⟩
  | cons a l ih =>
    rw [List.forall_mem_cons] at h
    obtain ⟨b, hb⟩ := h.1
    obtain ⟨bs, hbs⟩ := ih h.2
    exact ⟨b :: bs, mapM_eq_ok_iff.2 (.cons hb (mapM_eq_ok_iff.1 hbs))⟩

theorem getElem?_of_mapM (h : l.mapM f = .ok l') (i : Nat) :
    l'[i]? = l[i]?.bind fun a => (f a).toOption := by
  replace h := mapM_eq_ok_iff.1 h
  induction h generalizing i with
  | nil => rfl
  | cons hb _ ih =>
    cases i with
    | zero => simp [hb, Except.toOption]
    | succ i => simpa using ih i

/-- Where an element of a filtered list comes from. -/
theorem getElem?_filterMap_eq_some_iff {g : α → Option β} {k : Nat} {b : β} :
    (l.filterMap g)[k]? = some b ↔
      ∃ front a back, l = front ++ a :: back ∧ (front.filterMap g).length = k ∧ g a = some b := by
  constructor
  · intro h
    induction l generalizing k with
    | nil => cases h
    | cons a l ih =>
      cases ha : g a with
      | none =>
        rw [List.filterMap_cons_none ha] at h
        obtain ⟨front, a', back, rfl, rfl, ha'⟩ := ih h
        refine ⟨a :: front, a', back, rfl, ?_, ha'⟩
        rw [List.filterMap_cons_none ha]
      | some b' =>
        rw [List.filterMap_cons_some ha] at h
        cases k with
        | zero => exact ⟨[], a, l, rfl, rfl, ha.trans h⟩
        | succ k =>
          obtain ⟨front, a', back, rfl, rfl, ha'⟩ := ih (k := k) h
          refine ⟨a :: front, a', back, rfl, ?_, ha'⟩
          rw [List.filterMap_cons_some ha, List.length_cons]
  · rintro ⟨front, a, back, rfl, rfl, ha⟩
    rw [List.filterMap_append, List.filterMap_cons_some ha,
      List.getElem?_append_right (Nat.le_refl _), Nat.sub_self]
    rfl

/-- Naturals are all those below a bound, in some order, if there are as many of them and none
occurs twice. -/
theorem perm_range_iff {slots : List Nat} {n : Nat} (hlen : slots.length = n) :
    slots.Perm (List.range n) ↔ (∀ s ∈ slots, s < n) ∧ slots.Nodup := by
  constructor
  · intro h
    exact ⟨fun s hs => List.mem_range.1 (h.mem_iff.1 hs), h.nodup_iff.2 List.nodup_range⟩
  · rintro ⟨hlt, hnodup⟩
    have hsub : slots ⊆ List.range n := fun s hs => List.mem_range.2 (hlt s hs)
    exact (List.subperm_of_subset hnodup hsub).perm_of_length_le (by simp [hlen])

/-- The last element of a list, or else another one. -/
theorem getLast?_cons_or (a : α) (as : List α) (o : Option α) :
    (a :: as).getLast?.or o = as.getLast?.or (some a) := by
  rw [List.getLast?_cons]
  cases as.getLast? <;> rfl

end WireColumns
