import WireColumns.Proofs.Lists
import WireColumns.Proofs.Map.Slots

/-! # Columns of a map

What a map decoder gives is described from the configuration alone: the column of a key is the last
place whose literal stands for it (`MapConfig.IsColumnOf`), every entry contributes at most one
value, to the column of its key (`MapConfig.contribution`), and a column holds what the entries
contribute to it, in their order (`MapConfig.columnOf`). Decoding succeeds if every entry can be
read and then gives these columns (`MapDecoder.decode_entries`). -/

namespace WireColumns

/-! ## What the configuration asks for -/

namespace MapConfig

open MapDecoder

variable (config : MapConfig)

/-- The key listed at a place, if its literal stands for one. -/
def keyAt? (slot : Nat) : Option Value :=
  config.keys[slot]?.bind fun literal =>
    (keyParser? config.keyKind).bind fun parse => (parse literal).toOption

/-- The place is the last one at which the key is listed. -/
def IsColumnOf (key : Value) (slot : Nat) : Prop :=
  config.keyAt? slot = some key ∧
    ∀ later < config.keys.length, slot < later → config.keyAt? later ≠ some key

instance (key : Value) (slot : Nat) : Decidable (config.IsColumnOf key slot) :=
  inferInstanceAs (Decidable (_ ∧ _))

/-- What an entry contributes to a column: its last value, if the column is that of its last key. -/
def contribution (slot : Nat) (entry : Bytes) : Option Value :=
  let fields := (Walk.ofMessage entry).fields
  match (Field.valuesOf keyNumber config.keyKind fields).getLast? with
  | none => none
  | some key =>
    if config.IsColumnOf key slot then
      (Field.valuesOf valueNumber config.valueKind fields).getLast?
    else none

/-- The column of what the entries contribute to it, each with the entry's parent. -/
def columnOf (entries : List Bytes) (parents : List Int) (slot : Nat) : Column :=
  let found := (entries.zip parents).filterMap fun (entry, parent) =>
    (config.contribution slot entry).map fun value => (value, parent)
  { type := config.valueKind.valueType
    ownership := config.ownership
    values := found.map (·.1)
    parents := found.map (·.2) }

end MapConfig

namespace MapDecoder

variable {config : MapConfig} {d : MapDecoder} {key : Value} {slot : Nat} {entry : Bytes}
  {entries : List Bytes} {parents : List Int}

/-! ## Keys -/

/-- The column of a key is the last place at which it is listed. -/
theorem slot?_eq_some_iff :
    d.slot? key = some slot ↔
      d.keys[slot]? = some key ∧
        ∀ later < d.keys.length, slot < later → d.keys[later]? ≠ some key := by
  unfold slot?
  rw [Option.map_eq_some_iff]
  constructor
  · rintro ⟨i, hi, rfl⟩
    obtain ⟨hlen, hkey, hbefore⟩ := List.findIdx?_eq_some_iff_getElem.1 hi
    rw [List.length_reverse] at hlen
    rw [List.getElem_reverse, beq_iff_eq] at hkey
    refine ⟨List.getElem?_eq_some_iff.2 ⟨by omega, hkey⟩, fun later hlater hlt heq => ?_⟩
    -- a later place is met earlier in the reversed list
    refine hbefore (d.keys.length - 1 - later) (by omega) ?_
    obtain ⟨_, heq⟩ := List.getElem?_eq_some_iff.1 heq
    rw [List.getElem_reverse, beq_iff_eq, ← heq]
    congr 1
    omega
  · rintro ⟨hkey, hlast⟩
    obtain ⟨hlen, hkey⟩ := List.getElem?_eq_some_iff.1 hkey
    refine ⟨d.keys.length - 1 - slot, ?_, by omega⟩
    rw [List.findIdx?_eq_some_iff_getElem]
    refine ⟨by rw [List.length_reverse]; omega, ?_, fun i hi heq => ?_⟩
    · rw [List.getElem_reverse, beq_iff_eq, ← hkey]
      congr 1
      omega
    · rw [List.getElem_reverse, beq_iff_eq] at heq
      exact hlast (d.keys.length - 1 - i) (by omega) (by omega)
        (List.getElem?_eq_some_iff.2 ⟨by omega, heq⟩)

/-- What a decoder keeps of its configuration, the literals read. -/
structure Reads (d : MapDecoder) (config : MapConfig) : Prop where
  keyKind_eq : d.keyKind = config.keyKind
  valueKind_eq : d.valueKind = config.valueKind
  ownership_eq : d.ownership = config.ownership
  length_eq : d.keys.length = config.keys.length
  keys_eq : ∀ slot, d.keys[slot]? = config.keyAt? slot

theorem reads_of_ofConfig (hd : ofConfig config = .ok d) : d.Reads config := by
  unfold ofConfig at hd
  split at hd
  · cases hd
  · split at hd
    next => cases hd
    next parse hparse =>
      cases hkeys : config.keys.mapM parse with
      | error e =>
        rw [hkeys] at hd
        cases hd
      | ok keys =>
        rw [hkeys] at hd
        cases hd
        refine ⟨rfl, rfl, rfl, (mapM_eq_ok_iff.1 hkeys).length_eq.symm, fun slot => ?_⟩
        rw [MapConfig.keyAt?, hparse]
        exact getElem?_of_mapM hkeys slot

theorem Reads.slot?_eq_some_iff (h : d.Reads config) :
    d.slot? key = some slot ↔ config.IsColumnOf key slot := by
  rw [MapDecoder.slot?_eq_some_iff, MapConfig.IsColumnOf, h.length_eq]
  simp only [h.keys_eq]

/-! ## Entries and columns -/

/-- An entry is placed in the one column that it contributes to. -/
theorem Reads.contribution_eq (h : d.Reads config) {value? : Option Value}
    (hread : d.readEntry entry = .ok (key, value?)) (slot : Nat) :
    config.contribution slot entry =
      ((d.placeEntry key value?).filter (·.1 == slot)).map (·.2) := by
  obtain ⟨hkey, hvalue⟩ := getLast?_of_readEntry hread
  rw [h.keyKind_eq] at hkey
  rw [h.valueKind_eq] at hvalue
  simp only [MapConfig.contribution, hkey, hvalue, placeEntry, ← h.slot?_eq_some_iff]
  cases d.slot? key with
  | none => rfl
  | some column =>
    by_cases heq : column = slot
    · cases value? <;> simp [heq]
    · cases value? <;> simp [heq]

/-- The values placed in a column are those that the entries contribute to it. -/
theorem Reads.filter_placed (h : d.Reads config) {read : List (Value × Option Value)}
    (hread : List.Forall₂ (fun entry r => d.readEntry entry = .ok r) entries read)
    (parents : List Int) (slot : Nat) :
    ((d.placed read parents).filter (·.1.1 == slot)).map (fun p => (p.1.2, p.2)) =
      (entries.zip parents).filterMap fun (entry, parent) =>
        (config.contribution slot entry).map fun value => (value, parent) := by
  rw [placed, List.filter_filterMap, List.map_filterMap]
  induction hread generalizing parents with
  | nil => rfl
  | @cons entry r _ _ hr _ ih =>
    cases parents with
    | nil => rfl
    | cons parent parents =>
      have hfirst : (((d.placeEntry r.1 r.2).map fun place => (place, parent)).filter
          (·.1.1 == slot)).map (fun p => (p.1.2, p.2)) =
          (config.contribution slot entry).map fun value => (value, parent) := by
        rw [h.contribution_eq hr slot, Option.filter_map, Option.map_map, Option.map_map]
        rfl
      rw [List.zip_cons_cons, List.zip_cons_cons, List.filterMap_cons, List.filterMap_cons,
        ih parents]
      dsimp only
      rw [hfirst]

theorem Reads.columnAt_placed (h : d.Reads config) {read : List (Value × Option Value)}
    (hread : List.Forall₂ (fun entry r => d.readEntry entry = .ok r) entries read)
    (parents : List Int) (slot : Nat) :
    d.columnAt (d.placed read parents) slot = config.columnOf entries parents slot := by
  rw [columnAt, MapConfig.columnOf, ← h.filter_placed hread, h.valueKind_eq, h.ownership_eq,
    List.map_map, List.map_map]
  rfl

theorem mapM_readEntry_iff :
    (∃ read, entries.mapM d.readEntry = .ok read) ↔
      ∀ entry ∈ entries, WellFormedEntry d.keyKind d.valueKind entry := by
  constructor
  · rintro ⟨read, hread⟩
    have hwell := (mapM_eq_ok_iff.1 hread).imp fun _ _ hr =>
      And.intro (wellFormedEntry_of_readEntry hr) hr
    exact ((List.forall₂_and_left _ _).1 hwell).1
  · intro hall
    refine exists_mapM_eq_ok fun entry hentry => ?_
    obtain ⟨key, -, hread⟩ := (hall entry hentry).readEntry_eq
    exact ⟨_, hread⟩

/-- Decoding a map succeeds exactly if every entry can be read, and is refused as corrupt otherwise.
The columns hold what each entry contributes by itself. -/
theorem decode_entries (hd : ofConfig config = .ok d) (hlen : entries.length = parents.length) :
    ((∃ columns, d.decode entries parents = .ok columns) ↔
        ∀ entry ∈ entries, WellFormedEntry config.keyKind config.valueKind entry) ∧
      ((∃ entry ∈ entries, ¬ WellFormedEntry config.keyKind config.valueKind entry) →
        ∃ cause, d.decode entries parents = .error (.corrupt cause)) ∧
      ∀ columns, d.decode entries parents = .ok columns →
        columns = (List.range config.keys.length).map (config.columnOf entries parents) := by
  have h := reads_of_ofConfig hd
  rw [← h.keyKind_eq, ← h.valueKind_eq, ← mapM_readEntry_iff, decode_eq hlen]
  cases hread : entries.mapM d.readEntry with
  | error cause => exact ⟨by simp, fun _ => ⟨cause, rfl⟩, by simp⟩
  | ok read =>
    have hall := mapM_readEntry_iff.1 ⟨read, hread⟩
    refine ⟨⟨fun _ => ⟨read, rfl⟩, fun _ => ⟨_, rfl⟩⟩, ?_, ?_⟩
    · rintro ⟨entry, hentry, hnot⟩
      exact absurd (hall entry hentry) hnot
    · rintro columns hcolumns
      cases hcolumns
      rw [h.length_eq]
      refine List.map_congr_left fun slot _ => ?_
      exact h.columnAt_placed (mapM_eq_ok_iff.1 hread) parents slot

/-- The last value counts, and the last key, in the last column that is listed for it; a key nobody
asked for and a key without a value leave nothing behind for the entries after them. -/
theorem decode_entries_last :
    ofConfig ⟨.sint64, .uint32, ["-5", " 7 ", "+7"], .borrowed⟩ =
        .ok ⟨.sint64, .uint32, [.int64 (-5), .int64 7, .int64 7], .borrowed⟩ ∧
      (∀ entry ∈ [[16, 1, 16, 2, 8, 9], [16, 3, 8, 4], [8, 14], [8, 4, 8, 14, 16, 9]],
        WellFormedEntry .sint64 .uint32 entry) ∧
      (List.range 3).map (MapConfig.columnOf
          ⟨.sint64, .uint32, ["-5", " 7 ", "+7"], .borrowed⟩
          [[16, 1, 16, 2, 8, 9], [16, 3, 8, 4], [8, 14], [8, 4, 8, 14, 16, 9]] [4, 4, 5, 6]) =
        [⟨.uint32, .borrowed, [.uint32 2], [4]⟩, ⟨.uint32, .borrowed, [], []⟩,
          ⟨.uint32, .borrowed, [.uint32 9], [6]⟩] := by
  have hconfig : ofConfig ⟨.sint64, .uint32, ["-5", " 7 ", "+7"], .borrowed⟩ =
      .ok ⟨.sint64, .uint32, [.int64 (-5), .int64 7, .int64 7], .borrowed⟩ := by decide
  have hdecode : decode ⟨.sint64, .uint32, [.int64 (-5), .int64 7, .int64 7], .borrowed⟩
      [[16, 1, 16, 2, 8, 9], [16, 3, 8, 4], [8, 14], [8, 4, 8, 14, 16, 9]] [4, 4, 5, 6] =
      .ok [⟨.uint32, .borrowed, [.uint32 2], [4]⟩, ⟨.uint32, .borrowed, [], []⟩,
        ⟨.uint32, .borrowed, [.uint32 9], [6]⟩] := by cbv
  obtain ⟨hwell, -, hcolumns⟩ := decode_entries hconfig
    (show [[16, 1, 16, 2, 8, 9], [16, 3, 8, 4], [8, 14], [8, 4, 8, 14, 16, 9]].length =
      [4, 4, 5, 6].length from rfl)
  exact ⟨hconfig, hwell.1 ⟨_, hdecode⟩, (hcolumns _ hdecode).symm⟩

end MapDecoder

end WireColumns
