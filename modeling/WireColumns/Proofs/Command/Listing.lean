import WireColumns.Command.Inspect
import WireColumns.Proofs.Lists
import WireColumns.Proofs.Wire.Forest
import WireColumns.Proofs.Wire.Skipping

/-! # The listing of a message

The listing of a message has a line for each occurrence in the tree of its fields and groups
(`Inspect.lists_dumpFields`), a group in front of the occurrences in it. Of what has been cut out of
a message only a varint may have no line, if its value has more than 64 bits
(`Inspect.exists_line_iff`). -/

namespace WireColumns

/-- An occurrence, how many levels down it stands, and the position of its payload in the message or
group around it. -/
structure Placed where
  depth : Nat
  offset : Nat
  field : Field

/-- The occurrences of a tree in order, a group in front of the occurrences in it. -/
def Forest.preorder (depth position : Nat) : Forest → List Placed
  | nil => []
  | cons f inside rest =>
    ⟨depth, position + f.lead.length, f⟩ ::
      (inside.preorder (depth + 1) 0 ++ rest.preorder depth (position + f.bytes.length))

namespace Inspect

/-- What is shown of an occurrence. -/
def line (isVerbose : Bool) (o : Placed) : Except Corruption String := do
  let indent := String.ofList (List.replicate (2 * o.depth) ' ')
  let title := s!"{indent}@{o.offset} field {o.field.tag.number} {o.field.tag.wire.name}"
  match o.field.tag.wire with
  | .varint => return s!"{title}: {← Read.varint.eval o.field.payload}"
  | .fixed32 =>
    return s!"{title}: {hexadecimal 8 (← Read.fixed32.eval o.field.payload).toNat}"
  | .fixed64 =>
    return s!"{title}: {hexadecimal 16 (← Read.fixed64.eval o.field.payload).toNat}"
  | .lengthDelimited =>
    let data ← Read.lengthDelimited.eval o.field.payload
    return if isVerbose then s!"{title}: {preview data}" else s!"{title}: {data.length} bytes"
  | .startGroup => return s!"{title}: {(← Read.group.eval o.field.payload).length} bytes"
  | .endGroup => return title

variable {isVerbose : Bool} {fuel depth : Nat} {f : Field} {d d' : Dump} {contents : Bytes}

theorem dumpField_flat (hwire : f.tag.wire ≠ .startGroup) :
    dumpField fuel depth isVerbose f d =
      match line isVerbose ⟨depth, d.position + f.lead.length, f⟩ with
      | .ok s => .ok () ⟨d.lines.push s, d.position + f.lead.length + f.payload.length⟩
      | .error e => .error e ⟨d.lines, 0⟩ := by
  unfold dumpField line
  dsimp only
  cases hw : f.tag.wire with
  | startGroup => exact absurd hw hwire
  | endGroup => rfl
  | varint => cases Read.varint.eval f.payload <;> rfl
  | fixed32 => cases Read.fixed32.eval f.payload <;> rfl
  | fixed64 => cases Read.fixed64.eval f.payload <;> rfl
  | lengthDelimited => cases Read.lengthDelimited.eval f.payload <;> rfl

theorem dumpField_group (hwire : f.tag.wire = .startGroup)
    (hcontents : Read.group.eval f.payload = .ok contents) (fuel depth : Nat) (isVerbose : Bool)
    (d : Dump) :
    ∃ s, line isVerbose ⟨depth, d.position + f.lead.length, f⟩ = .ok s ∧
      dumpField fuel depth isVerbose f d =
        match dumpFields fuel (depth + 1) isVerbose contents ⟨d.lines.push s, 0⟩ with
        | .ok _ d' => .ok () ⟨d'.lines, d.position + f.lead.length + f.payload.length⟩
        | .error e d' => .error e d' := by
  unfold dumpField line
  rw [hwire, hcontents]
  refine ⟨_, rfl, ?_⟩
  simp only [bind, EStateM.bind, moveTo, addLine, modify, modifyGet, MonadStateOf.modifyGet,
    EStateM.modifyGet, ofExcept, pure, EStateM.pure]
  cases dumpFields fuel (depth + 1) isVerbose contents _ <;> rfl

/-! ## Trees -/

/-- The lines of the occurrences, one each. -/
def IsListing (isVerbose : Bool) (placed : List Placed) (lines : List String) : Prop :=
  List.Forall₂ (fun o text => line isVerbose o = .ok text) placed lines

/-- The computation adds the lines of the occurrences that stand behind the position, and moves
over them. It fails only if one of them has no line. -/
def Lists (isVerbose : Bool) (dump : EStateM Corruption Dump Unit) (placed : Nat → List Placed)
    (length : Nat) : Prop :=
  ∀ d d', dump d = .ok () d' ↔ ∃ lines, IsListing isVerbose (placed d.position) lines ∧
    d' = ⟨d.lines ++ lines.toArray, d.position + length⟩

theorem lists_pure : Lists isVerbose (pure ()) (fun _ => []) 0 := by
  intro d d'
  constructor
  · intro h
    cases h
    exact ⟨[], .nil, by simp⟩
  · rintro ⟨lines, hlines, rfl⟩
    cases hlines
    simp [pure, EStateM.pure]

theorem isListing_append_iff {placed placed' : List Placed} {lines : List String} :
    IsListing isVerbose (placed ++ placed') lines ↔
      ∃ front back, IsListing isVerbose placed front ∧ IsListing isVerbose placed' back ∧
        lines = front ++ back := by
  induction placed generalizing lines with
  | nil => simp [IsListing]
  | cons o placed ih =>
    constructor
    · intro h
      cases h with
      | cons htext hrest =>
        obtain ⟨front, back, hfront, hback, rfl⟩ := ih.1 hrest
        exact ⟨_, back, .cons htext hfront, hback, rfl⟩
    · rintro ⟨_, back, hfront, hback, rfl⟩
      cases hfront with
      | cons htext hfront => exact .cons htext (ih.2 ⟨_, back, hfront, hback, rfl⟩)

theorem Lists.bind {m m' : EStateM Corruption Dump Unit} {placed placed' : Nat → List Placed}
    {length length' : Nat} (h : Lists isVerbose m placed length)
    (h' : Lists isVerbose m' placed' length') :
    Lists isVerbose (m >>= fun _ => m')
      (fun position => placed position ++ placed' (position + length)) (length + length') := by
  intro d d'
  have hsplit : (m >>= fun _ => m') d = .ok () d' ↔ ∃ t, m d = .ok () t ∧ m' t = .ok () d' := by
    simp only [Bind.bind, EStateM.bind]
    cases m d with
    | ok a t => simp
    | error e t => simp
  rw [hsplit]
  constructor
  · rintro ⟨t, ht, hd'⟩
    obtain ⟨front, hfront, rfl⟩ := (h d t).1 ht
    obtain ⟨back, hback, rfl⟩ := (h' _ d').1 hd'
    exact ⟨_, isListing_append_iff.2 ⟨front, back, hfront, hback, rfl⟩, by simp [Nat.add_assoc]⟩
  · rintro ⟨lines, hlines, rfl⟩
    obtain ⟨front, back, hfront, hback, rfl⟩ := isListing_append_iff.1 hlines
    exact ⟨_, (h d _).2 ⟨front, hfront, rfl⟩, (h' _ _).2 ⟨back, hback, by simp [Nat.add_assoc]⟩⟩

/-- Below the line of a group come those of its contents. -/
theorem lists_dumpField {inside : Forest} (hf : f.Encloses inside)
    (hinside : ∀ {contents}, IsForest true contents inside →
      contents.length < f.payload.length →
      Lists isVerbose (dumpFields fuel (depth + 1) isVerbose contents)
        (inside.preorder (depth + 1)) contents.length) :
    Lists isVerbose (dumpField fuel depth isVerbose f)
      (fun position => ⟨depth, position + f.lead.length, f⟩ :: inside.preorder (depth + 1) 0)
      f.bytes.length := by
  intro d d'
  have hbytes : d.position + f.lead.length + f.payload.length = d.position + f.bytes.length := by
    rw [Field.bytes, List.length_append, Nat.add_assoc]
  cases hf with
  | none hwire =>
    rw [dumpField_flat hwire, hbytes]
    constructor
    · intro h
      split at h
      next text htext =>
        cases h
        exact ⟨[text], .cons htext .nil, rfl⟩
      next => cases h
    · rintro ⟨lines, hlines, rfl⟩
      cases hlines with
      | cons htext hnil =>
        cases hnil
        rw [htext]
        rfl
  | group hwire hcontents hforest =>
    have hlength := Read.group_eval_length_lt hcontents
    obtain ⟨text, htext, hdump⟩ := dumpField_group hwire hcontents fuel depth isVerbose d
    have hbelow := hinside hforest hlength ⟨d.lines.push text, 0⟩
    rw [hdump, hbytes]
    constructor
    · intro h
      split at h
      next hok =>
        obtain ⟨below, hlines, rfl⟩ := (hbelow _).1 hok
        cases h
        exact ⟨_, .cons htext hlines, by simp⟩
      next => cases h
    · rintro ⟨lines, hlines, rfl⟩
      cases hlines with
      | cons htext' hlines =>
        cases htext.symm.trans htext'
        rw [(hbelow _).2 ⟨_, hlines, rfl⟩]
        simp

/-- The occurrences of a message or group are listed as they stand in its tree. -/
theorem lists_dumpFields {isNested : Bool} {s : Bytes} {forest : Forest}
    (h : IsForest isNested s forest) (hfuel : s.length < fuel) :
    Lists isVerbose (dumpFields fuel depth isVerbose s) (forest.preorder depth) s.length := by
  induction forest generalizing isNested s fuel depth with
  | nil =>
    cases h
    obtain ⟨fuel, rfl⟩ := Nat.exists_eq_add_one_of_ne_zero (Nat.ne_zero_of_lt hfuel)
    have hvisit : dumpFields (fuel + 1) depth isVerbose [] = pure () := by
      rw [dumpFields, Walk.ofMessage, Walk.walkFrom_nil, Walk.visit_nil]
    rw [hvisit]
    exact lists_pure
  | cons f inside rest ihinside ih =>
    obtain ⟨p, rfl, hframed, -, hinside, hrest⟩ := h.exists_eq_append
    obtain ⟨fuel, rfl⟩ := Nat.exists_eq_add_one_of_ne_zero (Nat.ne_zero_of_lt hfuel)
    have hvisit : dumpFields (fuel + 1) depth isVerbose (f.bytes ++ p) =
        dumpField fuel depth isVerbose f >>= fun _ =>
          dumpFields (fuel + 1) depth isVerbose p := by
      rw [dumpFields, dumpFields, Walk.ofMessage_cons hframed, Walk.visit_cons]
    have hlength : f.payload.length + p.length ≤ fuel := by
      rw [Field.bytes, List.length_append, List.length_append] at hfuel
      omega
    have hfield : Lists isVerbose (dumpField fuel depth isVerbose f) _ _ :=
      lists_dumpField hinside fun hcontents hlt => ihinside hcontents (by omega)
    rw [hvisit, List.length_append]
    exact hfield.bind (ih hrest (by omega))

/-! ## Which trees are listed -/

/-- Every varint, in whatever group, has a value of 64 bits. -/
def VarintsFit (placed : List Placed) : Prop :=
  ∀ o ∈ placed, o.field.tag.wire = .varint →
    ∃ value, Read.varint.eval o.field.payload = .ok value

/-- Of what has been cut out of a message only a varint may have no line. -/
theorem exists_line_iff {o : Placed} (ho : o.field.Framed) :
    (∃ text, line isVerbose o = .ok text) ↔
      (o.field.tag.wire = .varint → ∃ value, Read.varint.eval o.field.payload = .ok value) := by
  obtain ⟨depth, offset, f⟩ := o
  have hpayload := ho.reads_payload []
  rw [List.append_nil] at hpayload
  have hshown {α : Type} {r : Read α} (describe : α → String) (h : ∃ a, r f.payload = .ok a []) :
      ∃ text, (do return describe (← r.eval f.payload)) = Except.ok text := by
    obtain ⟨a, ha⟩ := h
    exact ⟨describe a, by rw [Read.eval, ha]; rfl⟩
  unfold line
  dsimp only at hpayload ⊢
  cases hw : f.tag.wire with
  | varint =>
    dsimp only
    cases Read.varint.eval f.payload with
    | ok value => exact iff_of_true ⟨_, rfl⟩ fun _ => ⟨value, rfl⟩
    | error e => exact iff_of_false (by rintro ⟨text, h⟩; cases h) (by simp)
  | fixed32 =>
    rw [hw] at hpayload
    exact iff_of_true (hshown _ (Read.exists_map_eq_ok hpayload _)) (by simp)
  | fixed64 =>
    rw [hw] at hpayload
    exact iff_of_true (hshown _ (Read.exists_map_eq_ok hpayload _)) (by simp)
  | lengthDelimited =>
    rw [hw] at hpayload
    exact iff_of_true (hshown _ (Read.lengthDelimited_of_payload hpayload)) (by simp)
  | startGroup =>
    rw [hw] at hpayload
    exact iff_of_true (hshown _ (Read.group_of_payload hpayload)) (by simp)
  | endGroup => exact iff_of_true ⟨_, rfl⟩ (by simp)

theorem exists_isListing_iff {placed : List Placed} (h : ∀ o ∈ placed, o.field.Framed) :
    (∃ lines, IsListing isVerbose placed lines) ↔ VarintsFit placed :=
  exists_forall₂_iff.trans (forall₂_congr fun o ho => exists_line_iff (h o ho))

/-- The occurrences in a tree are cut out of its bytes, and those that close a group stand
uppermost. -/
theorem framed_of_mem_preorder {isNested : Bool} {s : Bytes} {forest : Forest}
    (h : IsForest isNested s forest) {position : Nat} :
    ∀ o ∈ forest.preorder depth position, o.field.Framed ∧
      (o.field.tag.wire = .endGroup → isNested = false ∧ o.depth = depth) := by
  induction forest generalizing isNested s depth position with
  | nil => simp [Forest.preorder]
  | cons f inside rest ihinside ih =>
    obtain ⟨p, rfl, hframed, hend, hinside, hrest⟩ := h.exists_eq_append
    rw [Forest.preorder, List.forall_mem_cons, List.forall_mem_append]
    refine ⟨⟨hframed, fun hwire => ⟨?_, rfl⟩⟩, fun o ho => ?_, ih hrest⟩
    · rw [← Bool.not_eq_true]
      exact fun hnested => hend hnested hwire
    · cases hinside with
      | none => cases ho
      | group _ _ hcontents =>
        obtain ⟨hoframed, hnested⟩ := ihinside hcontents o ho
        exact ⟨hoframed, fun hwire => absurd (hnested hwire).1 (by simp)⟩

/-! ## Messages -/

/-- The lines of a message. -/
def IsBlock (isVerbose : Bool) (message : Bytes × Nat) (block : List String) : Prop :=
  ∃ forest lines, IsForest false message.1 forest ∧
    IsListing isVerbose (forest.preorder 1 0) lines ∧
    block = s!"message {message.2} ({message.1.length} bytes)" :: lines

theorem dumpMessage_eq_ok_iff {m : Bytes} {index : Nat} {lines lines' : Array String} :
    dumpMessage isVerbose lines index m = .ok lines' ↔
      ∃ block, IsBlock isVerbose (m, index) block ∧ lines' = lines ++ block.toArray := by
  have hlists {forest : Forest} (hforest : IsForest false m forest) :
      Lists isVerbose (dumpFields (m.length + 1) 1 isVerbose m) (forest.preorder 1) m.length :=
    lists_dumpFields hforest (Nat.lt_succ_self _)
  unfold dumpMessage
  dsimp only
  constructor
  · intro h
    split at h
    next dump hok =>
      rw [dumpFields] at hok
      obtain ⟨forest, hforest⟩ := exists_isForest_iff.2 (Walk.ending_of_visit_ok hok)
      obtain ⟨below, hbelow, rfl⟩ := (hlists hforest _ _).1 (by rw [dumpFields]; exact hok)
      cases h
      exact ⟨_, ⟨forest, below, hforest, hbelow, rfl⟩, by simp⟩
    next => cases h
  · rintro ⟨block, ⟨forest, below, hforest, hbelow, rfl⟩, rfl⟩
    rw [(hlists hforest _ _).2 ⟨below, hbelow, rfl⟩]
    simp

theorem foldlM_dumpMessage_eq_ok_iff {messages : List (Bytes × Nat)}
    {lines lines' : Array String} :
    messages.foldlM (fun lines (m, index) => dumpMessage isVerbose lines index m) lines =
        .ok lines' ↔
      ∃ blocks, List.Forall₂ (IsBlock isVerbose) messages blocks ∧
        lines' = lines ++ blocks.flatten.toArray := by
  induction messages generalizing lines with
  | nil => simp [pure, Except.pure, eq_comm]
  | cons message messages ih =>
    obtain ⟨m, index⟩ := message
    rw [List.foldlM_cons]
    dsimp only
    constructor
    · intro h
      cases hdump : dumpMessage isVerbose lines index m with
      | error e =>
        rw [hdump] at h
        cases h
      | ok lines₁ =>
        rw [hdump] at h
        obtain ⟨block, hblock, rfl⟩ := dumpMessage_eq_ok_iff.1 hdump
        obtain ⟨blocks, hblocks, rfl⟩ := ih.1 h
        exact ⟨_, .cons hblock hblocks, by simp⟩
    · rintro ⟨_, hblocks, rfl⟩
      cases hblocks with
      | cons hblock hblocks =>
        rw [dumpMessage_eq_ok_iff.2 ⟨_, hblock, rfl⟩]
        exact ih.2 ⟨_, hblocks, by simp⟩

theorem dumpMessages_eq_ok_iff {messages : List Bytes} {count : Nat} {lines : List String} :
    dumpMessages messages count isVerbose = .ok lines ↔
      ∃ blocks, List.Forall₂ (IsBlock isVerbose) (messages.take count).zipIdx blocks ∧
        lines = blocks.flatten := by
  rw [dumpMessages]
  constructor
  · intro h
    cases hfold : (messages.take count).zipIdx.foldlM
      (fun lines (m, index) => dumpMessage isVerbose lines index m) #[] with
    | error e =>
      rw [hfold] at h
      cases h
    | ok lines' =>
      rw [hfold] at h
      obtain ⟨blocks, hblocks, rfl⟩ := foldlM_dumpMessage_eq_ok_iff.1 hfold
      cases h
      exact ⟨blocks, hblocks, by simp⟩
  · rintro ⟨blocks, hblocks, rfl⟩
    rw [foldlM_dumpMessage_eq_ok_iff.2 ⟨blocks, hblocks, rfl⟩]
    simp [Except.map]

/-- A message has lines if its walk ends properly and all varints in it have values. -/
theorem exists_isBlock_iff {message : Bytes × Nat} :
    (∃ block, IsBlock isVerbose message block) ↔
      (Walk.ofMessage message.1).ending = .complete ∧
        ∀ forest, IsForest false message.1 forest → VarintsFit (forest.preorder 1 0) := by
  have hlisting {forest : Forest} (hforest : IsForest false message.1 forest) :
      (∃ lines, IsListing isVerbose (forest.preorder 1 0) lines) ↔
        VarintsFit (forest.preorder 1 0) :=
    exists_isListing_iff fun o ho => (framed_of_mem_preorder hforest o ho).1
  constructor
  · rintro ⟨block, forest, lines, hforest, hlines, -⟩
    refine ⟨exists_isForest_iff.1 ⟨forest, hforest⟩, fun forest' hforest' => ?_⟩
    rw [hforest'.unique hforest]
    exact (hlisting hforest).1 ⟨lines, hlines⟩
  · rintro ⟨hending, hfit⟩
    obtain ⟨forest, hforest⟩ := exists_isForest_iff.2 hending
    obtain ⟨lines, hlines⟩ := (hlisting hforest).2 (hfit forest hforest)
    exact ⟨_, forest, lines, hforest, hlines, rfl⟩

theorem exists_dumpMessages_eq_ok_iff {messages : List Bytes} {count : Nat} :
    (∃ lines, dumpMessages messages count isVerbose = .ok lines) ↔
      ∀ m ∈ messages.take count, (Walk.ofMessage m).ending = .complete ∧
        ∀ forest, IsForest false m forest → VarintsFit (forest.preorder 1 0) := by
  have hblocks : (∃ lines, dumpMessages messages count isVerbose = .ok lines) ↔
      ∃ blocks, List.Forall₂ (IsBlock isVerbose) (messages.take count).zipIdx blocks := by
    simp only [dumpMessages_eq_ok_iff]
    constructor
    · rintro ⟨lines, blocks, hblocks, -⟩
      exact ⟨blocks, hblocks⟩
    · rintro ⟨blocks, hblocks⟩
      exact ⟨_, blocks, hblocks, rfl⟩
  rw [hblocks, exists_forall₂_iff]
  conv_rhs => rw [← List.zipIdx_map_fst 0 (messages.take count)]
  rw [List.forall_mem_map]
  exact forall₂_congr fun message _ => exists_isBlock_iff

/-! ## Fuel -/

/-- Fuel for all the bytes there are is enough, for each group is shorter than what it stands in. -/
theorem dumpFields_fuel (isVerbose : Bool) {m : Bytes} (fuel fuel' depth : Nat)
    (hfuel : m.length < fuel) (hfuel' : m.length < fuel') :
    dumpFields fuel depth isVerbose m = dumpFields fuel' depth isVerbose m := by
  induction fuel generalizing fuel' depth m with
  | zero => cases hfuel
  | succ fuel ih =>
    obtain ⟨fuel', rfl⟩ := Nat.exists_eq_add_one_of_ne_zero (Nat.ne_zero_of_lt hfuel')
    rw [dumpFields, dumpFields]
    refine Walk.visit_congr fun f hf => ?_
    have hpayload := hf.payload_length_lt
    unfold dumpField
    cases f.tag.wire with
    | startGroup =>
      dsimp only
      cases hcontents : Read.group.eval f.payload with
      | error e =>
        funext d
        rfl
      | ok contents =>
        have hlt := Read.group_eval_length_lt hcontents
        simp only [ofExcept, pure_bind]
        rw [ih fuel' (depth + 1) (by omega) (by omega)]
    | varint | fixed64 | fixed32 | lengthDelimited | endGroup => rfl

/-- Every occurrence is listed once, below the header of its message and in the order of the tree of
fields and groups, which there is if the walk of the message ends properly. A listing fails only if
a walk does not, or if a varint in a message or in any group has no value of 64 bits. Tags that
close a group are listed only where they stand outside all groups. The descent into groups ends
before the fuel does. -/
theorem lists_every_occurrence_once (messages : List Bytes) (count : Nat) (isVerbose : Bool) :
    (∀ m : Bytes, ((Walk.ofMessage m).ending = .complete ↔ ∃ forest, IsForest false m forest) ∧
      ∀ forest, IsForest false m forest → Walk.ofMessage m = ⟨forest.fields, .complete⟩ ∧
        ∀ forest', IsForest false m forest' → forest' = forest) ∧
    ((∃ lines, dumpMessages messages count isVerbose = .ok lines) ↔
      ∀ m ∈ messages.take count, (Walk.ofMessage m).ending = .complete ∧
        ∀ forest, IsForest false m forest → VarintsFit (forest.preorder 1 0)) ∧
    (∀ lines, dumpMessages messages count isVerbose = .ok lines ↔
      ∃ blocks, List.Forall₂ (IsBlock isVerbose) (messages.take count).zipIdx blocks ∧
        lines = blocks.flatten) ∧
    (∀ m forest, IsForest false m forest →
      ∀ o ∈ forest.preorder 1 0, o.field.tag.wire = .endGroup → o.depth = 1) ∧
    ∀ (m : Bytes) (depth fuel : Nat), m.length < fuel →
      dumpFields fuel depth isVerbose m = dumpFields (m.length + 1) depth isVerbose m :=
  ⟨fun _ => ⟨exists_isForest_iff.symm, fun _ h => ⟨h.walk_eq, fun _ h' => h'.unique h⟩⟩,
    exists_dumpMessages_eq_ok_iff, fun _ => dumpMessages_eq_ok_iff,
    fun _ _ hforest o ho hwire => ((framed_of_mem_preorder hforest o ho).2 hwire).2,
    fun _ _ _ hfuel => dumpFields_fuel isVerbose _ _ _ hfuel (Nat.lt_succ_self _)⟩

end Inspect

end WireColumns
