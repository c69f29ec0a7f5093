import WireColumns.Proofs.Column.Ragged

/-! # Decoded columns are typed

All values of a decoded column have the value type of the column (`Decoder.isTyped_of_decode`): what
an occurrence holds for a field, alone or in a packed run, is read with the kind of the field. -/

namespace WireColumns

variable {kind : FieldKind} {v : Value}

/-- Every value has the type of the column. -/
def Column.IsTyped (c : Column) : Prop := ∀ v ∈ c.values, v.type = c.type

theorem PackedRun.type_of_mem_readFrom {seen : Array Value} {s : Bytes}
    (hseen : ∀ v ∈ seen, v.type = kind.valueType) (hv : v ∈ (readFrom kind seen s).values) :
    v.type = kind.valueType := by
  fun_induction readFrom kind seen s with
  | case1 | case3 => exact hseen v (Array.mem_toList_iff.1 hv)
  | case2 seen s _ value rest hread ih =>
    refine ih (fun w hw => ?_) hv
    rcases Array.mem_push.1 hw with hw | rfl
    · exact hseen w hw
    · exact FieldKind.type_of_read hread

theorem FieldKind.type_of_mem_interpret {wire : WireType} {payload : Bytes}
    (hv : v ∈ (kind.interpret wire payload).values) : v.type = kind.valueType := by
  unfold interpret at hv
  split at hv
  next =>
    unfold Read.eval at hv
    cases hread : kind.read payload with
    | ok value rest =>
      rw [hread] at hv
      obtain rfl := List.mem_singleton.1 hv
      exact type_of_read hread
    | error e rest =>
      rw [hread] at hv
      cases hv
  next =>
    split at hv
    next =>
      cases hrun : Read.lengthDelimited.eval payload with
      | ok run =>
        rw [hrun] at hv
        exact PackedRun.type_of_mem_readFrom (by simp) hv
      | error e =>
        rw [hrun] at hv
        cases hv
    next => cases hv

theorem Field.type_of_mem_valuesFor {messageSetItems : Bool} {number : UInt32} {f : Field}
    (hv : v ∈ f.valuesFor messageSetItems number kind) : v.type = kind.valueType := by
  unfold Field.valuesFor at hv
  split at hv
  next t _ =>
    unfold Delivery.valuesFor at hv
    split at hv
    next => exact FieldKind.type_of_mem_interpret hv
    next => cases hv
  next => cases hv

theorem mem_of_mem_keptValues {repeated : Bool} {values : List Value}
    (hv : v ∈ keptValues repeated values) : v ∈ values := by
  cases repeated with
  | true => exact hv
  | false => exact List.mem_of_getLast? (Option.mem_toList.1 hv)

namespace Decoder

open Collector

variable {d : Decoder} {fields : List FieldSpec} {options : DecodeOptions} {messages : List Bytes}
variable {batch : Batch}

theorem type_of_mem_worth {m : Bytes} {number : UInt32} (hv : v ∈ d.worth m number kind) :
    v.type = kind.valueType := by
  unfold worth at hv
  split at hv
  next => cases hv
  next =>
    obtain ⟨f, -, hf⟩ := List.mem_flatMap.1 hv
    exact Field.type_of_mem_valuesFor hf

theorem isTyped_of_decode (hd : ofFields fields options = .ok d) (h : d.decode messages = .ok batch)
    {c : Column} (hc : c ∈ batch.columns) : c.IsTyped := by
  obtain ⟨-, -, hcolumns⟩ := gathered_of_decode hd h
  rw [hcolumns, List.mem_map] at hc
  obtain ⟨r, -, rfl⟩ := hc
  intro v hv
  have hvalues : v ∈ (entriesFrom r.spec.repeated 0 (messages.map fun m =>
      d.worth m r.spec.number r.spec.kind)).map Prod.fst := by
    simpa [toColumn, gather, ofSpec] using hv
  obtain ⟨e, he, rfl⟩ := List.mem_map.1 hvalues
  obtain ⟨i, values, hi, -, hmem⟩ := mem_entriesFrom he
  obtain ⟨m, -, rfl⟩ := List.mem_map.1 (List.mem_of_getElem? hi)
  exact type_of_mem_worth (mem_of_mem_keptValues hmem)

end Decoder

end WireColumns
