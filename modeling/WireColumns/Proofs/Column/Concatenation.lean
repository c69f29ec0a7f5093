import WireColumns.Proofs.Column.Session
import WireColumns.Proofs.Wire.Framing

/-! # Messages one behind the other

A message in front of another does what it does alone, and leaves the collectors to the one behind
(`Collector.dispatchMessage_append`): its occurrences are found in front of those of the other
(`Walk.ofMessage_append`), and no place reached among the collectors is remembered, since dispatch
is a look-up for every occurrence (`Collector.lookupMessage_append`). The first message must not
have a tag that closes a group, as such a tag ends a message. -/

namespace WireColumns

namespace Collector

variable {cs cs' : Array Collector} {messageSetItems : Bool} {index : Int} {m : Bytes}

theorem lookupMessage_append (h : lookupMessage messageSetItems m index cs = .ok () cs')
    (hplain : ∀ f ∈ (Walk.ofMessage m).fields, f.tag.wire ≠ .endGroup) (m' : Bytes) :
    lookupMessage messageSetItems (m ++ m') index cs =
      lookupMessage messageSetItems m' index cs' := by
  have hend := Walk.ending_of_visit_ok h
  obtain ⟨hcomplete, -, -⟩ := Walk.of_untilEndGroup_complete hend
  obtain ⟨hframed, htiles⟩ := Walk.tiles_of_complete hend
  have hwalk : (Walk.ofMessage (m ++ m')).untilEndGroup =
      ⟨(Walk.ofMessage m).fields ++ (Walk.ofMessage m').untilEndGroup.fields,
        (Walk.ofMessage m').untilEndGroup.ending⟩ := by
    conv_lhs => rw [htiles, Walk.ofMessage_append hframed, Walk.untilEndGroup_append hplain]
  have hfirst : (Walk.ofMessage m).untilEndGroup = ⟨(Walk.ofMessage m).fields, .complete⟩ :=
    (Walk.untilEndGroup_eq_self hplain _).trans (congrArg (Walk.mk _) hcomplete)
  rw [lookupMessage, hfirst] at h
  rw [lookupMessage, hwalk, Walk.visit_append]
  simp only [bind, EStateM.bind]
  rw [h]
  rfl

/-- What a message does to collectors leaves their numbers as they are. -/
theorem numbers_of_lookupMessage (hnodup : (numbers cs).Nodup)
    (h : lookupMessage messageSetItems m index cs = .ok () cs') : numbers cs' = numbers cs := by
  obtain ⟨vs, hvs⟩ := exists_addAll_lookupMessage hnodup messageSetItems m index
  rw [h] at hvs
  obtain rfl : cs' = addAll vs index cs := hvs
  exact numbers_addAll vs index cs

/-- Concatenation is merge: a message behind an accepted one does to the collectors what it does
when it is dispatched after that one under the same index. -/
theorem dispatchMessage_append (hs : areSorted cs.toList = true)
    (h : dispatchMessage messageSetItems m index cs = .ok () cs')
    (hplain : ∀ f ∈ (Walk.ofMessage m).fields, f.tag.wire ≠ .endGroup) (m' : Bytes) :
    dispatchMessage messageSetItems (m ++ m') index cs =
      dispatchMessage messageSetItems m' index cs' := by
  have hascending : (numbers cs).Pairwise (· < ·) := pairwise_of_areSorted hs
  rw [dispatchMessage_of_pairwise hascending] at h
  have hnumbers : numbers cs' = numbers cs :=
    numbers_of_lookupMessage (hascending.imp fun h => UInt32.ne_of_lt h) h
  rw [dispatchMessage_of_pairwise hascending, dispatchMessage_of_pairwise (hnumbers ▸ hascending)]
  exact lookupMessage_append h hplain m'

/-- The second message replaces the singular value of the first, and breaks off. -/
theorem dispatchMessage_append_overwritten :
    areSorted [⟨1, .int32, false, #[(.int32 9, 4)]⟩, ⟨5, .sint32, true, #[]⟩] = true ∧
      dispatchMessage false [0x28, 1, 0x08, 2] 4
          #[⟨1, .int32, false, #[(.int32 9, 4)]⟩, ⟨5, .sint32, true, #[]⟩] =
        .ok () #[⟨1, .int32, false, #[(.int32 2, 4)]⟩, ⟨5, .sint32, true, #[(.int32 (-1), 4)]⟩] ∧
      dispatchMessage false ([0x28, 1, 0x08, 2] ++ [0x08, 3, 0x0a]) 4
          #[⟨1, .int32, false, #[(.int32 9, 4)]⟩, ⟨5, .sint32, true, #[]⟩] =
        .error .varint32Truncated
          #[⟨1, .int32, false, #[(.int32 3, 4)]⟩, ⟨5, .sint32, true, #[(.int32 (-1), 4)]⟩] := by
  have hfirst : dispatchMessage false [0x28, 1, 0x08, 2] 4
        #[⟨1, .int32, false, #[(.int32 9, 4)]⟩, ⟨5, .sint32, true, #[]⟩] =
      .ok () #[⟨1, .int32, false, #[(.int32 2, 4)]⟩, ⟨5, .sint32, true, #[(.int32 (-1), 4)]⟩] := by
    cbv
  have hwalk : (Walk.ofMessage [0x28, 1, 0x08, 2]).fields =
      [⟨[0x28], ⟨5, .varint⟩, [1]⟩, ⟨[0x08], ⟨1, .varint⟩, [2]⟩] := by cbv
  refine ⟨by decide, hfirst, ?_⟩
  rw [dispatchMessage_append (by decide) hfirst (by simp [hwalk])]
  cbv

end Collector

end WireColumns
