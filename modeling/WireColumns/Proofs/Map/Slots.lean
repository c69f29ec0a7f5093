import WireColumns.Proofs.Map.Entries

/-! # Lists of a map decoder

A decoder takes its entries one after the other, with one cell for the value of the entry at hand
and one list for each key. What is in the cell when an entry begins does not matter, and the lists
only grow by what the entry has when it is read by itself (`MapDecoder.consumeEntry_eq`). So the
lists hold the values of the entries, each at the place of its key, and an entry is refused for the
reason for which it cannot be read (`MapDecoder.foldlM_consumeEntry`). -/

namespace WireColumns

namespace MapDecoder

variable {d : MapDecoder} {entries : List Bytes} {parents : List Int}

/-! ## One entry -/

/-- The state of the decoder when this much of an entry has been seen. -/
def track (d : MapDecoder) (s : SlotValues) (e : Entry) : EntryState :=
  { slots := { s with current? := e.value? }
    keyFound := e.key?.isSome
    slot? := e.key?.bind d.slot? }

theorem consumeField_track (s : SlotValues) (f : Field) (e : Entry) :
    Agree (fun t e => t = d.track s e) (d.consumeField f (d.track s e)) (d.noteField f e) := by
  unfold consumeField noteField
  split
  · cases d.readKey f with
    | ok key => exact .ok rfl
    | error cause => exact .error rfl
  · split
    · cases d.readValue f with
      | ok value => exact .ok rfl
      | error cause => exact .error rfl
    · exact .ok rfl

/-- An entry adds what it has by itself, whatever the entries before it have left in the cell. -/
theorem consumeEntry_eq (s : SlotValues) (entry : Bytes) (parent : Int) :
    d.consumeEntry s (entry, parent) =
      (d.readEntry entry).map fun (key, value?) =>
        (d.slot? key).elim { s with current? := value? }
          fun slot => SlotValues.commit { s with current? := value? } slot parent := by
  have hvisit : Agree (fun t e => t = d.track s e)
      ((Walk.ofMessage entry).visit d.consumeField { slots := s.reset })
      ((Walk.ofMessage entry).visit d.noteField {}) :=
    Walk.visit_agree _ (fun f _ e h => h ▸ consumeField_track s f e) rfl
  rw [consumeEntry, readEntry]
  generalize (Walk.ofMessage entry).visit d.consumeField _ = x,
    (Walk.ofMessage entry).visit d.noteField {} = y at hvisit
  cases hvisit with
  | error _ => rfl
  | @ok _ e ht =>
    obtain rfl := ht
    obtain ⟨_ | key, value?⟩ := e
    · rfl
    · cases hslot : d.slot? key <;> simp [track, hslot, Except.map]

/-! ## All entries -/

/-- The place of an entry's value: its column, if the key was asked for and there is a value. -/
def placeEntry (d : MapDecoder) (key : Value) (value? : Option Value) : Option (Nat × Value) :=
  (d.slot? key).bind fun slot => value?.map fun value => (slot, value)

/-- The places of the values of entries that have been read, each with the entry's parent. -/
def placed (d : MapDecoder) (read : List (Value × Option Value)) (parents : List Int) :
    List ((Nat × Value) × Int) :=
  (read.zip parents).filterMap fun ((key, value?), parent) =>
    (d.placeEntry key value?).map fun place => (place, parent)

/-- The column of the values placed at `slot`. -/
def columnAt (d : MapDecoder) (placed : List ((Nat × Value) × Int)) (slot : Nat) : Column :=
  let here := placed.filter fun p => p.1.1 == slot
  { type := d.valueKind.valueType
    ownership := d.ownership
    values := here.map fun p => p.1.2
    parents := here.map fun p => p.2 }

/-- The first `n` of some lists, as the decoder keeps them. -/
def listsOf {α : Type} (n : Nat) (f : Nat → List α) : Array (Array α) :=
  .ofFn fun slot : Fin n => (f slot).toArray

/-- The lists that hold the placed values, with what is in the cell. -/
def slotsOf (d : MapDecoder) (placed : List ((Nat × Value) × Int)) (current? : Option Value) :
    SlotValues :=
  { current?
    values := listsOf d.keys.length fun slot => (d.columnAt placed slot).values
    parents := listsOf d.keys.length fun slot => (d.columnAt placed slot).parents }

theorem columnAt_append (front : List ((Nat × Value) × Int)) (place : Nat × Value) (parent : Int)
    (slot : Nat) :
    d.columnAt (front ++ [(place, parent)]) slot =
      if place.1 = slot then
        { d.columnAt front slot with
          values := (d.columnAt front slot).values ++ [place.2]
          parents := (d.columnAt front slot).parents ++ [parent] }
      else d.columnAt front slot := by
  unfold columnAt
  by_cases h : place.1 = slot <;> simp [h, List.filter_append]

theorem modify_listsOf {α : Type} (n : Nat) (f : Nat → List α) (slot : Nat) (a : α) :
    (listsOf n f).modify slot (·.push a) =
      listsOf n fun i => if slot = i then f i ++ [a] else f i := by
  refine Array.ext (by simp [listsOf]) fun i _ _ => ?_
  rw [Array.getElem_modify]
  simp only [listsOf, Array.getElem_ofFn]
  split <;> simp

/-- The current value goes to the end of its list. -/
theorem commit_slotsOf (front : List ((Nat × Value) × Int)) (value : Value) (slot : Nat)
    (parent : Int) :
    (d.slotsOf front (some value)).commit slot parent =
      d.slotsOf (front ++ [((slot, value), parent)]) none := by
  rw [SlotValues.commit, slotsOf, slotsOf]
  dsimp only
  rw [modify_listsOf, modify_listsOf]
  congr <;> funext i <;> rw [columnAt_append] <;> split <;> rfl

/-- An entry that can be read adds its value to the list of its key. -/
theorem consumeEntry_slotsOf (front : List ((Nat × Value) × Int)) (current? : Option Value)
    (entry : Bytes) (parent : Int) :
    ∃ left?, d.consumeEntry (d.slotsOf front current?) (entry, parent) =
      (d.readEntry entry).map fun (key, value?) =>
        d.slotsOf (front ++ ((d.placeEntry key value?).map fun place => (place, parent)).toList)
          left? := by
  rw [consumeEntry_eq]
  cases d.readEntry entry with
  | error cause => exact ⟨none, rfl⟩
  | ok r =>
    obtain ⟨key, value?⟩ := r
    have hnone (left? : Option Value) :
        d.slotsOf front left? = d.slotsOf (front ++ []) left? := by rw [List.append_nil]
    simp only [Except.map, placeEntry]
    cases d.slot? key with
    | none => exact ⟨value?, congrArg _ (hnone value?)⟩ -- the value stays in the cell
    | some slot =>
      cases value? with
      | none => exact ⟨none, congrArg _ (hnone none)⟩
      | some value => exact ⟨none, congrArg _ (commit_slotsOf front value slot parent)⟩

theorem placed_cons (key : Value) (value? : Option Value) (read : List (Value × Option Value))
    (parent : Int) (parents : List Int) :
    d.placed ((key, value?) :: read) (parent :: parents) =
      ((d.placeEntry key value?).map fun place => (place, parent)).toList ++
        d.placed read parents := by
  rw [placed, List.zip_cons_cons, List.filterMap_cons]
  dsimp only
  cases d.placeEntry key value? <;> rfl

/-- If all entries can be read, their values are placed, and otherwise the first that cannot is the
reason for the failure. -/
theorem foldlM_consumeEntry (hlen : entries.length = parents.length)
    (front : List ((Nat × Value) × Int)) (current? : Option Value) :
    ∃ left?, (entries.zip parents).foldlM d.consumeEntry (d.slotsOf front current?) =
      (entries.mapM d.readEntry).map fun read =>
        d.slotsOf (front ++ d.placed read parents) left? := by
  induction entries generalizing parents front current? with
  | nil => exact ⟨current?, by simp [placed, Except.map, pure, Except.pure]⟩
  | cons entry entries ih =>
    cases parents with
    | nil => cases hlen
    | cons parent parents =>
      obtain ⟨left?, hentry⟩ := consumeEntry_slotsOf (d := d) front current? entry parent
      rw [List.zip_cons_cons, List.foldlM_cons, List.mapM_cons, hentry]
      cases d.readEntry entry with
      | error cause => exact ⟨none, rfl⟩
      | ok r =>
        obtain ⟨key, value?⟩ := r
        obtain ⟨last?, hrest⟩ := ih (Nat.succ.inj hlen)
          (front ++ ((d.placeEntry key value?).map fun place => (place, parent)).toList) left?
        refine ⟨last?, hrest.trans ?_⟩
        cases entries.mapM d.readEntry with
        | error cause => rfl
        | ok read =>
          simp only [Except.map, bind, Except.bind, pure, Except.pure, placed_cons,
            List.append_assoc]

theorem toColumns_slotsOf (placed : List ((Nat × Value) × Int)) (current? : Option Value) :
    (d.slotsOf placed current?).toColumns d.valueKind.valueType d.ownership =
      (List.range d.keys.length).map (d.columnAt placed) := by
  refine List.ext_getElem (by simp [SlotValues.toColumns, slotsOf, listsOf]) fun i _ _ => ?_
  simp [SlotValues.toColumns, slotsOf, listsOf, columnAt]

theorem slotsOf_nil : d.slotsOf [] none = .empty d.keys.length := by
  rw [slotsOf, SlotValues.empty]
  congr <;> exact Array.ext (by simp [listsOf]) (by simp [listsOf, columnAt])

/-- Decoding places the values of the entries, each of which is read by itself. -/
theorem decode_eq (hlen : entries.length = parents.length) :
    d.decode entries parents =
      match entries.mapM d.readEntry with
      | .error e => .error (.corrupt e)
      | .ok read => .ok ((List.range d.keys.length).map (d.columnAt (d.placed read parents))) := by
  obtain ⟨left?, hfold⟩ := foldlM_consumeEntry (d := d) hlen [] none
  rw [decode, if_neg (not_not_intro hlen), ← slotsOf_nil, hfold]
  cases entries.mapM d.readEntry with
  | error cause => rfl
  | ok read => exact congrArg _ (toColumns_slotsOf _ left?)

end MapDecoder

end WireColumns
