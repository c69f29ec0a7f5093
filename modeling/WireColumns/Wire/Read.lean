import WireColumns.Wire.Fixed
import WireColumns.Wire.Tag
import WireColumns.Wire.Varint

/-! # Reading from the front of a byte string

A `Read` takes bytes off the front of the input and either gives a value or says what is corrupt;
in both cases it leaves what it has not taken. `Read.tag` reads a tag and `Read.payload` all the
bytes of the payload behind it. A group is closed by counting how many groups are open, so nesting
of any depth is read in one loop (`Read.closeGroup`).

A read that gives a value never lengthens the input, and `Read.Advances` names those that shorten
it; the loops over fields and packed values end for this reason.
-/

namespace WireColumns

/-- A computation that takes bytes off the front of the input. -/
abbrev Read := EStateM Corruption Bytes

namespace Read

variable {α β : Type}

/-- The value read from the front of `s`, whatever follows it. -/
def eval (r : Read α) (s : Bytes) : Except Corruption α :=
  match r s with
  | .ok a _ => .ok a
  | .error e _ => .error e

/-! ## Numbers -/

def varint : Read UInt64 := fun s =>
  match Varint.decode s with
  | .ok (value, width) => .ok value (s.drop width)
  | .error e => .error e s

def varint32 : Read UInt32 := fun s =>
  match Varint.decode32 s with
  | .ok (value, width) => .ok value (s.drop width)
  | .error e => .error e s

/-- The next `n` bytes, or `cause` if there are fewer. -/
def exactly (n : Nat) (cause : Corruption) : Read Bytes := fun s =>
  match Bytes.splitExact? n s with
  | some (front, rest) => .ok front rest
  | none => .error cause s

def fixed32 : Read UInt32 :=
  (fun p => .ofBitVec (Fixed.decode p)) <$> exactly 4 .fixed32Truncated

def fixed64 : Read UInt64 :=
  (fun p => .ofBitVec (Fixed.decode p)) <$> exactly 8 .fixed64Truncated

/-! ## Tags and payloads -/

/-- A tag together with the bytes that encode it. The bytes of an unacceptable tag are taken. -/
def header : Read (Bytes × Tag) := fun s =>
  match Varint.decode32 s with
  | .error e => .error e s
  | .ok (raw, width) =>
    match Tag.ofRaw raw with
    | .ok tag => .ok (s.take width, tag) (s.drop width)
    | .error e => .error e (s.drop width)

def tag : Read Tag := Prod.snd <$> header

/-- A length prefix and the bytes it announces. The prefix is taken even if too few bytes
follow. -/
def delimitedParts : Read (Bytes × Bytes) := fun s =>
  match Varint.decode32 s with
  | .error e => .error e s
  | .ok (length, width) =>
    match Bytes.splitExact? length.toNat (s.drop width) with
    | some (data, rest) => .ok (s.take width, data) rest
    | none => .error (.lengthTooLarge length (s.drop width).length) (s.drop width)

/-- The bytes behind a length prefix. -/
def lengthDelimited : Read Bytes := Prod.snd <$> delimitedParts

/-- The bytes of the number at the front of the input. -/
def rawVarint : Read Bytes := fun s =>
  match Varint.width s with
  | .ok width => .ok (s.take width) (s.drop width)
  | .error e => .error e s

/-- All the bytes of a payload that is not a group. A tag that closes a group has no payload. -/
def flatPayload : WireType → Read Bytes
  | .varint => rawVarint
  | .fixed64 => exactly 8 .fixed64Truncated
  | .fixed32 => exactly 4 .fixed32Truncated
  | .lengthDelimited => (fun (lead, data) => lead ++ data) <$> delimitedParts
  | .startGroup | .endGroup => pure []

/-! ## What is left -/

/-- Whatever `r` gives a value for, it shortens. -/
def Advances (r : Read α) : Prop :=
  ∀ ⦃s : Bytes⦄ ⦃a : α⦄ ⦃rest : Bytes⦄, r s = .ok a rest → rest.length < s.length

theorem map_eq_ok_iff {f : α → β} {r : Read α} {s rest : Bytes} {b : β} :
    (f <$> r) s = .ok b rest ↔ ∃ a, r s = .ok a rest ∧ f a = b := by
  simp only [Functor.map, EStateM.map]
  cases r s <;> grind

theorem Advances.map {r : Read α} (f : α → β) (h : Advances r) : Advances (f <$> r) := by
  intro s b rest hb
  obtain ⟨a, ha, _⟩ := map_eq_ok_iff.1 hb
  exact h ha

theorem varint_advances : Advances varint := by
  intro s a rest h
  simp only [varint] at h
  split at h
  · have := Varint.decode_width ‹_›
    simp only [EStateM.Result.ok.injEq] at h
    rw [← h.2, List.length_drop]
    omega
  · simp at h

theorem exactly_eq_ok_iff {n : Nat} {cause : Corruption} {s p rest : Bytes} :
    exactly n cause s = .ok p rest ↔ s = p ++ rest ∧ p.length = n := by
  constructor
  · intro h
    rw [exactly] at h
    split at h
    next hsplit =>
      cases h
      exact (Bytes.splitExact?_eq_some_iff.1 hsplit).symm
    next => cases h
  · intro h
    rw [exactly, Bytes.splitExact?_eq_some_iff.2 h.symm]

theorem exactly_advances {n : Nat} (hn : 0 < n) (cause : Corruption) :
    Advances (exactly n cause) := by
  intro s p rest h
  obtain ⟨rfl, hlength⟩ := exactly_eq_ok_iff.1 h
  rw [List.length_append]
  omega

theorem header_advances : Advances header := by
  intro s a rest h
  simp only [header] at h
  split at h
  · simp at h
  · have := Varint.decode32_width ‹_›
    split at h
    · simp only [EStateM.Result.ok.injEq] at h
      rw [← h.2, List.length_drop]
      omega
    · simp at h

theorem delimitedParts_advances : Advances delimitedParts := by
  intro s a rest h
  simp only [delimitedParts] at h
  split at h
  · simp at h
  · have := Varint.decode32_width ‹_›
    split at h
    · rename_i hs
      have := congrArg List.length (Bytes.splitExact?_eq_some_iff.1 hs).2
      simp only [EStateM.Result.ok.injEq] at h
      simp only [List.length_drop, List.length_append] at this
      rw [← h.2]
      omega
    · simp at h

theorem lengthDelimited_advances : Advances lengthDelimited := delimitedParts_advances.map _

theorem rawVarint_advances : Advances rawVarint := by
  intro s a rest h
  simp only [rawVarint] at h
  split at h
  · have := Varint.width_pos ‹_›
    simp only [EStateM.Result.ok.injEq] at h
    rw [← h.2, List.length_drop]
    omega
  · simp at h

theorem flatPayload_length_le {wire : WireType} {s p rest : Bytes}
    (h : flatPayload wire s = .ok p rest) : rest.length ≤ s.length := by
  cases wire with
  | varint => exact Nat.le_of_lt (rawVarint_advances h)
  | fixed64 | fixed32 => exact Nat.le_of_lt (exactly_advances (by decide) _ h)
  | lengthDelimited => exact Nat.le_of_lt (delimitedParts_advances.map _ h)
  | startGroup | endGroup =>
    simp only [flatPayload, pure, EStateM.pure, EStateM.Result.ok.injEq] at h
    simp [h.2]

/-! ## Groups -/

/-- How many groups are open behind a tag and its payload, when `depth` are in front of it. -/
def depthAfter (depth : Nat) : WireType → Nat
  | .startGroup => depth + 1
  | .endGroup => depth - 1
  | _ => depth

/-- Reads up to the tag that closes the group, with `depth` further groups open inside it and
the bytes read so far in `seen`, last one first. Gives the contents and the closing tag's bytes.
Any tag that closes a group closes the innermost open one, whatever its field number. -/
def closeGroup (depth : Nat) (seen s : Bytes) :
    EStateM.Result Corruption Bytes (Bytes × Bytes) :=
  if s.isEmpty then .error .unclosedGroup s
  else
    match _hh : header s with
    | .error e rest => .error e rest
    | .ok (lead, tag) afterTag =>
      if tag.wire = .endGroup ∧ depth = 0 then .ok (seen.reverse, lead) afterTag
      else
        match _hp : flatPayload tag.wire afterTag with
        | .error e rest => .error e rest
        | .ok payload rest =>
          closeGroup (depthAfter depth tag.wire) (payload.reverseAux (lead.reverseAux seen)) rest
termination_by s.length
decreasing_by
  exact Nat.lt_of_le_of_lt (flatPayload_length_le _hp) (header_advances _hh)

/-- The contents of the group whose opening tag has just been read, and the bytes of the tag
that closes it. -/
def groupParts : Read (Bytes × Bytes) := closeGroup 0 []

/-- The contents of the group whose opening tag has just been read. -/
def group : Read Bytes := Prod.fst <$> groupParts

/-- All the bytes of the payload behind a tag; those of a group include the closing tag. -/
def payload : WireType → Read Bytes
  | .startGroup => (fun (contents, closing) => contents ++ closing) <$> groupParts
  | wire => flatPayload wire

theorem closeGroup_length_lt {depth : Nat} {seen s rest : Bytes} {parts : Bytes × Bytes}
    (h : closeGroup depth seen s = .ok parts rest) : rest.length < s.length := by
  fun_induction closeGroup depth seen s with
  | case1 | case2 | case4 => simp at h
  | case3 depth seen s _ lead tag afterTag hh =>
    simp only [EStateM.Result.ok.injEq] at h
    exact h.2 ▸ header_advances hh
  | case5 depth seen s _ lead tag afterTag hh _ p t hp ih =>
    have := ih h
    have := flatPayload_length_le hp
    have := header_advances hh
    omega

theorem groupParts_advances : Advances groupParts := fun _ _ _ h => closeGroup_length_lt h

theorem group_advances : Advances group := groupParts_advances.map _

theorem payload_length_le {wire : WireType} {s p rest : Bytes}
    (h : payload wire s = .ok p rest) : rest.length ≤ s.length := by
  cases wire with
  | startGroup => exact Nat.le_of_lt (groupParts_advances.map _ h)
  | varint | fixed64 | fixed32 | lengthDelimited | endGroup =>
    simp only [payload] at h
    exact flatPayload_length_le h

end Read

end WireColumns
