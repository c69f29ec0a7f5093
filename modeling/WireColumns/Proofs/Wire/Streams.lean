import WireColumns.Command.Decode
import WireColumns.Proofs.Wire.Encoder

/-! # Streams of messages

A stream is frames one after the other (`Delimited.IsStream`), a frame a message behind its length
(`Delimited.IsFrame`), which may take more bytes than needed. What is joined is such a stream, and a
byte string is split just if it is one. Of any other byte string frames can be cut off up to a place
where no frame fits, and that place is the offset in the error (`Delimited.BreaksAt`). -/

namespace WireColumns.Delimited

open Varint Read

/-- A message behind its length. -/
def IsFrame (frame message : Bytes) : Prop :=
  ∃ lead, Encodes32 lead message.length ∧ frame = lead ++ message

/-- The frames of the messages, one after the other. -/
inductive IsStream : Bytes → List Bytes → Prop
  | nil : IsStream [] []
  | cons {frame message rest : Bytes} {messages : List Bytes} : IsFrame frame message →
      IsStream rest messages → IsStream (frame ++ rest) (message :: messages)

/-- Frames stand up to the offset, and what stands there does not begin with a frame. -/
def BreaksAt (s : Bytes) (offset : Nat) : Prop :=
  ∃ front messages rest, s = front ++ rest ∧ front.length = offset ∧ IsStream front messages ∧
    rest ≠ [] ∧ ∀ frame message, IsFrame frame message → ¬ frame <+: rest

variable {s frame message rest front : Bytes} {messages : List Bytes} {seen : Array Bytes}
  {offset : Nat}

/-! ## Frames -/

/-- A frame is what is read as a length and the bytes it announces. -/
theorem exists_delimitedParts_iff :
    (∃ lead message rest, delimitedParts s = .ok (lead, message) rest) ↔
      ∃ frame message, IsFrame frame message ∧ frame <+: s := by
  constructor
  · rintro ⟨lead, message, rest, hparts⟩
    obtain ⟨rfl, hlead⟩ := delimitedParts_eq_ok_iff.1 hparts
    exact ⟨_, message, ⟨lead, hlead, rfl⟩, List.prefix_append ..⟩
  · rintro ⟨_, message, ⟨lead, hlead, rfl⟩, rest, rfl⟩
    exact ⟨lead, message, rest, delimitedParts_eq_ok_iff.2 ⟨rfl, hlead⟩⟩

theorem splitFrom_frame (h : IsFrame frame message) :
    splitFrom seen offset (frame ++ rest) =
      splitFrom (seen.push message) (offset + frame.length) rest := by
  obtain ⟨lead, hlead, rfl⟩ := h
  have hparts : delimitedParts (lead ++ message ++ rest) = .ok (lead, message) rest :=
    delimitedParts_eq_ok_iff.2 ⟨rfl, hlead⟩
  have hempty : (lead ++ message ++ rest).isEmpty = false := by
    simpa using fun hnil => absurd hlead.isNumber.length_pos (by simp [hnil])
  rw [splitFrom, hempty, if_neg Bool.false_ne_true]
  split
  next herror => cases hparts.symm.trans herror
  next hok =>
    cases hparts.symm.trans hok
    rw [List.length_append, Nat.add_assoc]

theorem splitFrom_of_no_frame (hne : s ≠ [])
    (hnone : ∀ frame message, IsFrame frame message → ¬ frame <+: s) :
    ∃ cause, splitFrom seen offset s = .error ⟨offset, cause⟩ := by
  have hempty : s.isEmpty = false := by simpa using hne
  rw [splitFrom, hempty, if_neg Bool.false_ne_true]
  split
  next cause _ _ => exact ⟨cause, rfl⟩
  next hok =>
    obtain ⟨frame, message, hframe, hprefix⟩ := exists_delimitedParts_iff.1 ⟨_, _, _, hok⟩
    exact absurd hprefix (hnone frame message hframe)

/-! ## Streams -/

theorem IsStream.splitFrom_append (h : IsStream front messages) (rest : Bytes) :
    splitFrom seen offset (front ++ rest) =
      splitFrom (seen ++ messages.toArray) (offset + front.length) rest := by
  induction h generalizing seen offset with
  | nil => simp
  | @cons frame message front messages hframe _ ih =>
    rw [List.append_assoc, splitFrom_frame hframe, ih, List.length_append, Nat.add_assoc]
    simp

theorem IsStream.split_eq (h : IsStream s messages) : split s = .ok messages := by
  have hsplit : splitFrom #[] 0 (s ++ []) = _ := h.splitFrom_append []
  rw [List.append_nil] at hsplit
  rw [split, hsplit, splitFrom]
  simp

theorem BreaksAt.exists_split_eq (h : BreaksAt s offset) :
    ∃ cause, split s = .error ⟨offset, cause⟩ := by
  obtain ⟨front, messages, rest, rfl, rfl, hfront, hne, hnone⟩ := h
  rw [split, hfront.splitFrom_append, Nat.zero_add]
  exact splitFrom_of_no_frame hne hnone

/-- Frames can be cut off until nothing is left or no frame fits. -/
theorem isStream_or_breaksAt (s : Bytes) :
    (∃ messages, IsStream s messages) ∨ ∃ offset, BreaksAt s offset := by
  by_cases hne : s = []
  · subst hne
    exact .inl ⟨[], .nil⟩
  by_cases hframe : ∃ frame message, IsFrame frame message ∧ frame <+: s
  · obtain ⟨frame, message, hframe, rest, rfl⟩ := hframe
    have hshorter : rest.length < (frame ++ rest).length := by
      obtain ⟨lead, hlead, rfl⟩ := hframe
      have hpos := hlead.isNumber.length_pos
      simp only [List.length_append]
      omega
    obtain ⟨messages, hrest⟩ | ⟨_, front, messages, tail, rfl, rfl, hfront, hbreak⟩ :=
      isStream_or_breaksAt rest
    · exact .inl ⟨_, .cons hframe hrest⟩
    · refine .inr ⟨_, frame ++ front, _, tail, ?_, rfl, .cons hframe hfront, hbreak⟩
      exact (List.append_assoc ..).symm
  · exact .inr ⟨0, [], [], s, rfl, rfl, .nil, hne,
      fun frame message h hprefix => hframe ⟨frame, message, h, hprefix⟩⟩
termination_by s.length

theorem split_eq_ok_iff : split s = .ok messages ↔ IsStream s messages := by
  refine ⟨fun h => ?_, IsStream.split_eq⟩
  obtain ⟨messages', hs⟩ | ⟨offset, hs⟩ := isStream_or_breaksAt s
  · obtain rfl := Except.ok.inj (hs.split_eq.symm.trans h)
    exact hs
  · obtain ⟨cause, herror⟩ := hs.exists_split_eq
    cases herror.symm.trans h

theorem exists_split_eq_error_iff :
    (∃ cause, split s = .error ⟨offset, cause⟩) ↔ BreaksAt s offset := by
  refine ⟨fun ⟨cause, h⟩ => ?_, BreaksAt.exists_split_eq⟩
  obtain ⟨messages, hs⟩ | ⟨offset', hs⟩ := isStream_or_breaksAt s
  · cases hs.split_eq.symm.trans h
  · obtain ⟨cause', herror⟩ := hs.exists_split_eq
    cases herror.symm.trans h
    exact hs

/-- Lengths are written as numbers of 32 bits if they are that small. -/
theorem isStream_join [Encoder] [LawfulEncoder] (h : ∀ m ∈ messages, m.length < 2 ^ 32) :
    IsStream (join messages) messages := by
  induction messages with
  | nil => exact .nil
  | cons m messages ih =>
    rw [List.forall_mem_cons] at h
    obtain ⟨hm, hmessages⟩ := h
    exact .cons ⟨_, Encoder.encodes32_length hm, rfl⟩ (ih hmessages)

/-- Messages that are joined are split again, whichever lawful encoder writes their lengths. A byte
string is split into messages just if it is a stream of them; any other byte string is refused, and
the error tells the place up to which frames can be cut off and where none fits any more. -/
theorem split_join_and_tiles [Encoder] [LawfulEncoder] (messages : List Bytes) (s : Bytes) :
    ((∀ m ∈ messages, m.length < 2 ^ 32) → split (join messages) = .ok messages) ∧
    (split s = .ok messages ↔ IsStream s messages) ∧
    (∀ offset, (∃ cause, split s = .error ⟨offset, cause⟩) ↔ BreaksAt s offset) ∧
    ((¬ ∃ messages, IsStream s messages) → ∃ offset, BreaksAt s offset) ∧
    ∀ failure, splitOrFail s = .error failure →
      ∃ offset, BreaksAt s offset ∧
        failure.message = s!"Malformed message length at offset {offset}" := by
  refine ⟨fun h => (isStream_join h).split_eq, split_eq_ok_iff,
    fun offset => exists_split_eq_error_iff, (isStream_or_breaksAt s).resolve_left, ?_⟩
  intro failure hfailure
  rw [splitOrFail] at hfailure
  cases hsplit : split s with
  | ok messages =>
    rw [hsplit] at hfailure
    cases hfailure
  | error bad =>
    rw [hsplit] at hfailure
    cases hfailure
    exact ⟨bad.offset, exists_split_eq_error_iff.1 ⟨bad.cause, hsplit⟩, rfl⟩

/-- Two messages are joined and split. Behind the same two, the first of which has a length of two
bytes now, a frame is cut off. -/
theorem split_join_and_tiles_cut_off :
    @LawfulEncoder .shortest ∧
      join [[0x2a], []] = [0x01, 0x2a, 0x00] ∧ split (join [[0x2a], []]) = .ok [[0x2a], []] ∧
      IsStream [0x81, 0x00, 0x2a, 0x00] [[0x2a], []] ∧
      BreaksAt [0x81, 0x00, 0x2a, 0x00, 0x02, 0x07] 4 := by
  obtain ⟨hjoin, htiles, -⟩ :=
    split_join_and_tiles [[0x2a], []] [0x81, 0x00, 0x2a, 0x00]
  obtain ⟨-, -, hbreaks, -⟩ :=
    split_join_and_tiles [[0x2a], []] [0x81, 0x00, 0x2a, 0x00, 0x02, 0x07]
  have hcut : split [0x81, 0x00, 0x2a, 0x00, 0x02, 0x07] =
      .error ⟨4, .lengthTooLarge 2 1⟩ := by cbv
  exact ⟨Encoder.lawful_shortest, by cbv, hjoin (by decide), htiles.1 (by cbv),
    (hbreaks 4).1 ⟨_, hcut⟩⟩

end WireColumns.Delimited
