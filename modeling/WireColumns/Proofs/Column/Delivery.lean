import WireColumns.Proofs.Column.Lookup

/-! # What a message adds to the collectors

Where every field has one collector, giving a payload away adds values to the collector of its
field and to no other (`Collector.consumeFirst_eq`). Two facts about whole messages follow. Whether
a message is accepted depends on the numbers and kinds of the collectors only, not on what they have
collected nor on the message's index (`Collector.lookupMessage_agree`); and a message, accepted or
not, does nothing but add values under its index (`Collector.exists_addAll_lookupMessage`). -/

namespace WireColumns

/-- A computation that ends in a state with or without a failure. -/
def endWith {σ : Type} (failure? : Option Corruption) (s : σ) :
    EStateM.Result Corruption σ Unit :=
  match failure? with
  | none => .ok () s
  | some e => .error e s

/-- The values that a payload has for a field. -/
def Delivery.valuesFor (t : Delivery) (number : UInt32) (kind : FieldKind) : List Value :=
  if t.number = number then (kind.interpret t.wire t.payload).values else []

namespace Collector

/-- Adds to every collector the values for its field. -/
def addAll (values : UInt32 → FieldKind → List Value) (index : Int) (cs : Array Collector) :
    Array Collector :=
  cs.map fun c => c.commitAll (values c.number c.kind) index

/-- What keeps the collector of its field from taking a payload. -/
def refusal? (t : Delivery) (cs : Array Collector) : Option Corruption :=
  (cs.toList.find? (·.number == t.number)).bind fun c =>
    (c.kind.interpret t.wire t.payload).failure?

/-! ## Adding values to all collectors -/

theorem addAll_nil (index : Int) (cs : Array Collector) : addAll (fun _ _ => []) index cs = cs :=
  Array.map_id' cs

theorem addAll_congr {cs : Array Collector} {vs ws : UInt32 → FieldKind → List Value}
    (h : ∀ c ∈ cs, vs c.number c.kind = ws c.number c.kind) (index : Int) :
    addAll vs index cs = addAll ws index cs :=
  Array.map_congr_left fun c hc => by rw [h c hc]

theorem addAll_addAll (vs ws : UInt32 → FieldKind → List Value) (index : Int)
    (cs : Array Collector) :
    addAll ws index (addAll vs index cs) = addAll (fun n k => vs n k ++ ws n k) index cs := by
  simp only [addAll, Array.map_map]
  congr 1
  funext c
  simp [commitAll_append]

@[simp] theorem numbers_addAll (vs : UInt32 → FieldKind → List Value) (index : Int)
    (cs : Array Collector) : numbers (addAll vs index cs) = numbers cs := by
  simp [numbers, addAll]

/-! ## One payload -/

theorem consume_eq (c : Collector) (wire : WireType) (payload : Bytes) (index : Int) :
    consume wire payload index c =
      endWith (c.kind.interpret wire payload).failure?
        (c.commitAll (c.kind.interpret wire payload).values index) := rfl

theorem consumeFirst_eq {cs : Array Collector} (h : (numbers cs).Nodup) (t : Delivery)
    (index : Int) :
    consumeFirst t index cs = endWith (refusal? t cs) (addAll t.valuesFor index cs) := by
  unfold consumeFirst
  cases hfind : cs.findFinIdx? (·.number == t.number) with
  | none =>
    rw [Array.findFinIdx?_eq_none_iff] at hfind
    have hne : ∀ c ∈ cs, c.number ≠ t.number := fun c hc => by simpa using hfind c hc
    have hrefusal : refusal? t cs = none := by
      rw [refusal?, List.find?_eq_none.2 (by simpa using hne)]
      rfl
    have hadd : addAll t.valuesFor index cs = cs := by
      rw [addAll]
      refine (Array.map_congr_left fun c hc => ?_).trans (Array.map_id cs)
      simp [Delivery.valuesFor, (hne c hc).symm, commitAll]
    rw [hrefusal, hadd]
    rfl
  | some place =>
    obtain ⟨hnum, hfirst⟩ := Array.findFinIdx?_eq_some_iff.1 hfind
    obtain ⟨i, hi⟩ := place
    have hnum : cs[i].number = t.number := by simpa using hnum
    have hrefusal : refusal? t cs = (cs[i].kind.interpret t.wire t.payload).failure? := by
      have : cs.toList.find? (·.number == t.number) = some cs[i] := by
        rw [List.find?_eq_some_iff_getElem]
        refine ⟨by simpa using hnum, i, by simpa using hi, by simp, fun j hj => ?_⟩
        simpa using hfirst ⟨j, Nat.lt_trans hj hi⟩ hj
      rw [refusal?, this]
      rfl
    have hset : cs.set i (cs[i].commitAll (cs[i].kind.interpret t.wire t.payload).values index) =
        addAll t.valuesFor index cs := by
      refine Array.ext (by simp [addAll]) fun j hj hj' => ?_
      have hj : j < cs.size := by simpa using hj
      simp only [addAll, Array.getElem_map]
      rcases eq_or_ne i j with rfl | hne
      · rw [Array.getElem_set_self, Delivery.valuesFor, if_pos hnum.symm]
      · -- the field has no second collector
        have hnumber : t.number ≠ cs[j].number := by
          intro heq
          have hi : i < (numbers cs).length := by simpa [numbers] using hi
          have hj : j < (numbers cs).length := by simpa [numbers] using hj
          have heq : (numbers cs)[i] = (numbers cs)[j] := by simpa [numbers] using hnum.trans heq
          exact hne (h.getElem_inj_iff.1 heq)
        rw [Array.getElem_set_ne _ _ hne, Delivery.valuesFor, if_neg hnumber]
        rfl
    dsimp only [Fin.getElem_fin]
    rw [consume_eq, hrefusal, ← hset]
    cases (cs[i].kind.interpret t.wire t.payload).failure? <;> rfl

/-- A payload is refused by a collector of its field only. -/
theorem refusal?_eq_none_iff {cs : Array Collector} (h : (numbers cs).Nodup) {t : Delivery} :
    refusal? t cs = none ↔
      ∀ c ∈ cs, c.number = t.number → (c.kind.interpret t.wire t.payload).failure? = none := by
  rw [refusal?]
  cases hfind : cs.toList.find? (·.number == t.number) with
  | none =>
    have hne : ∀ c ∈ cs, c.number ≠ t.number := by simpa using hfind
    exact ⟨fun _ c hc hn => absurd hn (hne c hc), fun _ => rfl⟩
  | some found =>
    have hmem : found ∈ cs.toList := List.mem_of_find?_eq_some hfind
    have hnumber : found.number = t.number := by simpa using List.find?_some hfind
    rw [Option.bind_some]
    refine ⟨fun hfound c hc hn => ?_, fun hall => hall found (by simpa using hmem) hnumber⟩
    obtain rfl : c = found :=
      List.inj_on_of_nodup_map h (by simpa using hc) hmem (hn.trans hnumber.symm)
    exact hfound

/-! ## Whole messages -/

/-- The collectors without what they have collected. -/
def clearAll (cs : Array Collector) : Array Collector := cs.map clear

theorem numbers_clearAll (cs : Array Collector) : numbers (clearAll cs) = numbers cs := by
  simp [numbers, clearAll, clear]

@[simp] theorem clearAll_addAll (vs : UInt32 → FieldKind → List Value) (index : Int)
    (cs : Array Collector) : clearAll (addAll vs index cs) = clearAll cs := by
  simp only [clearAll, addAll, Array.map_map]
  congr 1
  funext c
  simp only [Function.comp_apply, clear]
  rw [commitAll_eq]

theorem exists_of_clearAll_eq {cs ds : Array Collector} (h : clearAll cs = clearAll ds)
    {c : Collector} (hc : c ∈ cs) : ∃ c' ∈ ds, c'.number = c.number ∧ c'.kind = c.kind := by
  have hclear : c.clear ∈ clearAll ds := by
    rw [← h]
    exact Array.mem_map_of_mem hc
  obtain ⟨c', hc', heq⟩ := Array.mem_map.1 hclear
  have hnumber : c'.clear.number = c.clear.number := by rw [heq]
  have hkind : c'.clear.kind = c.clear.kind := by rw [heq]
  exact ⟨c', hc', hnumber, hkind⟩

/-- Collectors of the same fields, each field having one. -/
structure SameFields (cs ds : Array Collector) : Prop where
  clearAll_eq : clearAll cs = clearAll ds
  nodup : (numbers cs).Nodup

/-! ## Refusals depend on numbers and kinds only -/

/-- The numbers and kinds of collectors, in order. -/
def kinds (cs : Array Collector) : List (UInt32 × FieldKind) :=
  cs.toList.map fun c => (c.number, c.kind)

theorem map_fst_kinds (cs : Array Collector) : (kinds cs).map Prod.fst = numbers cs := by
  simp [kinds, numbers]

@[simp] theorem kinds_addAll (vs : UInt32 → FieldKind → List Value) (index : Int)
    (cs : Array Collector) : kinds (addAll vs index cs) = kinds cs := by
  simp [kinds, addAll]

theorem kinds_clearAll (cs : Array Collector) : kinds (clearAll cs) = kinds cs := by
  simp [kinds, clearAll, clear]

theorem refusal?_congr {cs ds : Array Collector} (h : kinds cs = kinds ds) (t : Delivery) :
    refusal? t cs = refusal? t ds := by
  have hkinds : ∀ cs, refusal? t cs = ((kinds cs).find? (·.1 == t.number)).bind fun field =>
      (field.2.interpret t.wire t.payload).failure? := fun cs => by
    rw [kinds, List.find?_map, Option.bind_map]
    rfl
  rw [hkinds, hkinds, h]

/-- Collectors of fields of the same numbers and kinds, each field having one. -/
structure SameKinds (cs ds : Array Collector) : Prop where
  kinds_eq : kinds cs = kinds ds
  nodup : (numbers cs).Nodup

theorem SameKinds.nodup' {cs ds : Array Collector} (h : SameKinds cs ds) : (numbers ds).Nodup := by
  rw [← map_fst_kinds, ← h.kinds_eq, map_fst_kinds]
  exact h.nodup

theorem SameFields.sameKinds {cs ds : Array Collector} (h : SameFields cs ds) :
    SameKinds cs ds := by
  refine ⟨?_, h.nodup⟩
  rw [← kinds_clearAll, h.clearAll_eq, kinds_clearAll]

theorem lookup_agree {cs ds : Array Collector} (h : SameKinds cs ds) (messageSetItems : Bool)
    (f : Field) (index index' : Int) :
    Agree SameKinds (lookup messageSetItems index f cs) (lookup messageSetItems index' f ds) := by
  unfold lookup
  cases f.delivery messageSetItems with
  | error e => exact .error h
  | ok t =>
    dsimp only
    rw [consumeFirst_eq h.nodup, consumeFirst_eq h.nodup', refusal?_congr h.kinds_eq]
    have h' : SameKinds (addAll t.valuesFor index cs) (addAll t.valuesFor index' ds) :=
      ⟨by simpa using h.kinds_eq, by simpa using h.nodup⟩
    cases refusal? t ds with
    | none => exact .ok h'
    | some e => exact .error h'

/-- Whether a message is accepted depends neither on what has been collected nor on the index. -/
theorem lookupMessage_agree {cs ds : Array Collector} (h : SameKinds cs ds)
    (messageSetItems : Bool) (message : Bytes) (index index' : Int) :
    Agree SameKinds (lookupMessage messageSetItems message index cs)
      (lookupMessage messageSetItems message index' ds) :=
  Walk.visit_agree _ (fun f _ _ h => lookup_agree h messageSetItems f index index') h

/-! ## What a message does -/

/-- All that a message does is to add values under its index. -/
theorem exists_addAll_lookupMessage {cs : Array Collector} (h : (numbers cs).Nodup)
    (messageSetItems : Bool) (message : Bytes) (index : Int) :
    ∃ vs, finalState (lookupMessage messageSetItems message index cs) = addAll vs index cs := by
  refine Walk.visit_preserves (P := fun ds => ∃ vs, ds = addAll vs index cs) _
    (fun f ds hds => ?_) ⟨_, (addAll_nil index cs).symm⟩
  obtain ⟨vs, rfl⟩ := hds
  unfold lookup
  cases f.delivery messageSetItems with
  | error e => exact ⟨vs, rfl⟩
  | ok t =>
    refine ⟨_, Eq.trans ?_ (addAll_addAll vs t.valuesFor index cs)⟩
    dsimp only
    rw [consumeFirst_eq (by simpa using h)]
    cases refusal? t (addAll vs index cs) <;> rfl

end Collector

end WireColumns
