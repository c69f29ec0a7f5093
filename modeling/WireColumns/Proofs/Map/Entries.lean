import WireColumns.Column.MapDecoder
import WireColumns.Proofs.Lists
import WireColumns.Proofs.Wire.Visit

/-! # Entries of a map

An entry is read here by itself, without the lists and keys of a decoder (`MapDecoder.readEntry`).
It can be read if it is walked through to its end, has a key, and each of its keys and values can be
read (`MapDecoder.WellFormedEntry`); what is read is the last key and the last value
(`MapDecoder.WellFormedEntry.readEntry_eq`). Each occurrence replaces what stands in the state, so
the state behind some occurrences is what the last of them brought, or else what was there before
(`MapDecoder.visit_noteField`). -/

namespace WireColumns

/-- The occurrence has the wire type of the kind and can be read as a value of it. -/
def Field.Holds (kind : FieldKind) (f : Field) : Prop :=
  f.tag.wire = kind.wireType ∧ ∃ v, kind.read.eval f.payload = .ok v

/-- The values in the occurrences of a field, in order. -/
def Field.valuesOf (number : UInt32) (kind : FieldKind) (fields : List Field) : List Value :=
  (fields.filter (·.tag.number == number)).filterMap fun f => (kind.read.eval f.payload).toOption

namespace Field

variable {number : UInt32} {kind : FieldKind} {f : Field} {fields : List Field}

theorem valuesOf_cons_of_eq (hn : f.tag.number = number) {v : Value}
    (hv : kind.read.eval f.payload = .ok v) :
    valuesOf number kind (f :: fields) = v :: valuesOf number kind fields := by
  rw [valuesOf, List.filter_cons_of_pos (by simpa using hn), List.filterMap_cons, hv]
  rfl

theorem valuesOf_cons_of_ne (hn : f.tag.number ≠ number) :
    valuesOf number kind (f :: fields) = valuesOf number kind fields := by
  rw [valuesOf, List.filter_cons_of_neg (by simpa using hn), valuesOf]

theorem valuesOf_eq_nil_iff (h : ∀ f ∈ fields, f.tag.number = number → f.Holds kind) :
    valuesOf number kind fields = [] ↔ ¬ ∃ f ∈ fields, f.tag.number = number := by
  constructor
  · rintro hnil ⟨f, hf, hn⟩
    obtain ⟨-, v, hv⟩ := h f hf hn
    have hmem : v ∈ valuesOf number kind fields :=
      List.mem_filterMap.2 ⟨f, List.mem_filter.2 ⟨hf, by simpa using hn⟩, by rw [hv]; rfl⟩
    rw [hnil] at hmem
    cases hmem
  · intro hnone
    have hfilter : fields.filter (·.tag.number == number) = [] := by
      rw [List.filter_eq_nil_iff]
      exact fun f hf hn => hnone ⟨f, hf, by simpa using hn⟩
    rw [valuesOf, hfilter, List.filterMap_nil]

end Field

namespace MapDecoder

/-- The key and the value of an entry, as far as they have been seen. -/
structure Entry where
  key? : Option Value := none
  value? : Option Value := none
  deriving DecidableEq, Repr

/-- Takes note of a key or value; a later one replaces an earlier one. -/
def noteField (d : MapDecoder) (f : Field) : EStateM Corruption Entry Unit := do
  if f.tag.number = keyNumber then
    let key ← MonadExcept.ofExcept (d.readKey f)
    modify fun entry => { entry with key? := some key }
  else if f.tag.number = valueNumber then
    let value ← MonadExcept.ofExcept (d.readValue f)
    modify fun entry => { entry with value? := some value }

/-- The key of an entry and its value, if it has one. -/
def readEntry (d : MapDecoder) (bytes : Bytes) : Except Corruption (Value × Option Value) :=
  match (Walk.ofMessage bytes).visit d.noteField {} with
  | .error e _ => .error e
  | .ok _ entry =>
    match entry.key? with
    | none => .error .entryWithoutKey
    | some key => .ok (key, entry.value?)

/-- What an entry must be like to be read. -/
structure WellFormedEntry (keyKind valueKind : FieldKind) (entry : Bytes) : Prop where
  complete : (Walk.ofMessage entry).ending = .complete
  has_key : ∃ f ∈ (Walk.ofMessage entry).fields, f.tag.number = keyNumber
  keys : ∀ f ∈ (Walk.ofMessage entry).fields, f.tag.number = keyNumber → f.Holds keyKind
  values : ∀ f ∈ (Walk.ofMessage entry).fields, f.tag.number = valueNumber → f.Holds valueKind

variable {d : MapDecoder} {f : Field} {fields : List Field} {entry : Bytes}

/-! ## One occurrence -/

theorem readKey_eq_ok_iff {key : Value} :
    d.readKey f = .ok key ↔
      f.tag.wire = d.keyKind.wireType ∧ d.keyKind.read.eval f.payload = .ok key := by
  unfold readKey
  split
  next hw => simp [hw]
  next hw =>
    rw [not_not] at hw
    cases d.keyKind.read.eval f.payload <;> simp [hw]

theorem readValue_eq_ok_iff {value : Value} :
    d.readValue f = .ok value ↔
      f.tag.wire = d.valueKind.wireType ∧ d.valueKind.read.eval f.payload = .ok value := by
  unfold readValue
  split
  next hw => simp [hw]
  next hw =>
    rw [not_not] at hw
    simp [hw]

theorem noteField_key (hn : f.tag.number = keyNumber) (e : Entry) :
    d.noteField f e =
      match d.readKey f with
      | .ok key => .ok () { e with key? := some key }
      | .error cause => .error cause e := by
  rw [noteField, if_pos hn]
  cases d.readKey f <;> rfl

theorem noteField_value (hn : f.tag.number = valueNumber) (e : Entry) :
    d.noteField f e =
      match d.readValue f with
      | .ok value => .ok () { e with value? := some value }
      | .error cause => .error cause e := by
  have hne : f.tag.number ≠ keyNumber := by rw [hn]; decide
  rw [noteField, if_neg hne, if_pos hn]
  cases d.readValue f <;> rfl

theorem noteField_other (hk : f.tag.number ≠ keyNumber) (hv : f.tag.number ≠ valueNumber)
    (e : Entry) : d.noteField f e = .ok () e := by
  rw [noteField, if_neg hk, if_neg hv]
  rfl

/-- Only keys and values that can be read are taken note of. -/
theorem holds_of_noteField {e e' : Entry} (h : d.noteField f e = .ok () e') :
    (f.tag.number = keyNumber → f.Holds d.keyKind) ∧
      (f.tag.number = valueNumber → f.Holds d.valueKind) := by
  refine ⟨fun hn => ?_, fun hn => ?_⟩
  · rw [noteField_key hn] at h
    cases hread : d.readKey f with
    | ok key =>
      obtain ⟨hw, hv⟩ := readKey_eq_ok_iff.1 hread
      exact ⟨hw, key, hv⟩
    | error cause =>
      rw [hread] at h
      cases h
  · rw [noteField_value hn] at h
    cases hread : d.readValue f with
    | ok value =>
      obtain ⟨hw, hv⟩ := readValue_eq_ok_iff.1 hread
      exact ⟨hw, value, hv⟩
    | error cause =>
      rw [hread] at h
      cases h

/-! ## All occurrences -/

/-- Behind occurrences that can be read stand the last key and the last value of them, or what was
there before. -/
theorem visit_noteField (hk : ∀ f ∈ fields, f.tag.number = keyNumber → f.Holds d.keyKind)
    (hv : ∀ f ∈ fields, f.tag.number = valueNumber → f.Holds d.valueKind) (e : Entry) :
    Walk.visit ⟨fields, .complete⟩ d.noteField e =
      .ok () ⟨(Field.valuesOf keyNumber d.keyKind fields).getLast?.or e.key?,
        (Field.valuesOf valueNumber d.valueKind fields).getLast?.or e.value?⟩ := by
  induction fields generalizing e with
  | nil => rw [Walk.visit_nil]; rfl
  | cons f fields ih =>
    rw [List.forall_mem_cons] at hk hv
    rw [Walk.visit_cons]
    simp only [bind, EStateM.bind]
    by_cases hkey : f.tag.number = keyNumber
    · have hne : f.tag.number ≠ valueNumber := by rw [hkey]; decide
      obtain ⟨hw, key, hread⟩ := hk.1 hkey
      rw [noteField_key hkey, readKey_eq_ok_iff.2 ⟨hw, hread⟩]
      dsimp only
      rw [ih hk.2 hv.2, Field.valuesOf_cons_of_eq hkey hread, Field.valuesOf_cons_of_ne hne,
        getLast?_cons_or]
    · by_cases hvalue : f.tag.number = valueNumber
      · obtain ⟨hw, value, hread⟩ := hv.1 hvalue
        rw [noteField_value hvalue, readValue_eq_ok_iff.2 ⟨hw, hread⟩]
        dsimp only
        rw [ih hk.2 hv.2, Field.valuesOf_cons_of_ne hkey,
          Field.valuesOf_cons_of_eq hvalue hread, getLast?_cons_or]
      · rw [noteField_other hkey hvalue]
        dsimp only
        rw [ih hk.2 hv.2, Field.valuesOf_cons_of_ne hkey, Field.valuesOf_cons_of_ne hvalue]

theorem holds_of_visit {walk : Walk} {e e' : Entry} (h : walk.visit d.noteField e = .ok () e') :
    ∀ f ∈ walk.fields, (f.tag.number = keyNumber → f.Holds d.keyKind) ∧
      (f.tag.number = valueNumber → f.Holds d.valueKind) := by
  obtain ⟨fields, ending⟩ := walk
  induction fields generalizing e with
  | nil => simp
  | cons f fields ih =>
    rw [Walk.visit_cons] at h
    simp only [bind, EStateM.bind] at h
    cases hstep : d.noteField f e with
    | ok _ e₁ =>
      rw [hstep] at h
      exact List.forall_mem_cons.2 ⟨holds_of_noteField hstep, ih h⟩
    | error cause e₁ =>
      rw [hstep] at h
      cases h

/-! ## Entries -/

/-- Of an entry the last key and the last value are read. -/
theorem WellFormedEntry.readEntry_eq (h : WellFormedEntry d.keyKind d.valueKind entry) :
    ∃ key, (Field.valuesOf keyNumber d.keyKind (Walk.ofMessage entry).fields).getLast? = some key ∧
      d.readEntry entry = .ok (key,
        (Field.valuesOf valueNumber d.valueKind (Walk.ofMessage entry).fields).getLast?) := by
  have hvisit := visit_noteField h.keys h.values {}
  rw [← h.complete, Option.or_none, Option.or_none] at hvisit
  cases hkey : (Field.valuesOf keyNumber d.keyKind (Walk.ofMessage entry).fields).getLast? with
  | none =>
    have hnone := (Field.valuesOf_eq_nil_iff h.keys).1 (List.getLast?_eq_none_iff.1 hkey)
    exact absurd h.has_key hnone
  | some key =>
    refine ⟨key, rfl, ?_⟩
    rw [readEntry, hvisit, hkey]

theorem wellFormedEntry_of_readEntry {r : Value × Option Value} (h : d.readEntry entry = .ok r) :
    WellFormedEntry d.keyKind d.valueKind entry := by
  cases hvisit : (Walk.ofMessage entry).visit d.noteField {} with
  | error cause e =>
    rw [readEntry, hvisit] at h
    cases h
  | ok _ e =>
    have hcomplete := Walk.ending_of_visit_ok hvisit
    have hholds := holds_of_visit hvisit
    have hkeys := fun f hf => (hholds f hf).1
    have hvalues := fun f hf => (hholds f hf).2
    refine ⟨hcomplete, ?_, hkeys, hvalues⟩
    by_contra hnone
    -- without a key the state is still without one at the end
    have hstate := visit_noteField hkeys hvalues {}
    rw [← hcomplete, (Field.valuesOf_eq_nil_iff hkeys).2 hnone] at hstate
    rw [readEntry, hstate] at h
    cases h

theorem getLast?_of_readEntry {key : Value} {value? : Option Value}
    (h : d.readEntry entry = .ok (key, value?)) :
    (Field.valuesOf keyNumber d.keyKind (Walk.ofMessage entry).fields).getLast? = some key ∧
      (Field.valuesOf valueNumber d.valueKind (Walk.ofMessage entry).fields).getLast? = value? := by
  obtain ⟨key', hkey, hread⟩ := (wellFormedEntry_of_readEntry h).readEntry_eq
  rw [hread] at h
  cases h
  exact ⟨hkey, rfl⟩

end MapDecoder

end WireColumns
