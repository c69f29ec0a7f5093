import WireColumns.Proofs.Wire.Grammar
import WireColumns.Proofs.Wire.Visit

/-! # The tree of fields and groups

The occurrences inside a group stand one level below it. A byte string whose walk ends properly has
just one such tree (`exists_isForest_iff`, `IsForest.unique`): the payload that a walk finds behind
the tag of a group is cut into occurrences in the same way, down to any level. Tags that close a
group without opening one stand outside all groups.

Whatever a walk meets has a payload that is shorter than the message
(`Walk.Meets.payload_length_lt`), so that groups are gone into only as far as there are bytes. -/

namespace WireColumns

open Read

/-- Occurrences one behind the other, each with those inside it, which only a group has. -/
inductive Forest
  | nil
  | cons (field : Field) (inside rest : Forest)

/-- The occurrences that are not in a group. -/
def Forest.fields : Forest → List Field
  | nil => []
  | cons f _ rest => f :: rest.fields

/-- The byte string is made up of the occurrences. A tag that closes a group may stand by itself,
but not in another group. -/
inductive IsForest : (isNested : Bool) → Bytes → Forest → Prop
  | nil {isNested : Bool} : IsForest isNested [] .nil
  | flat {isNested : Bool} {lead payload s : Bytes} {tag : Tag} {rest : Forest} :
      EncodesTag lead tag → IsFlat tag.wire payload → IsForest isNested s rest →
      IsForest isNested (lead ++ payload ++ s) (.cons ⟨lead, tag, payload⟩ .nil rest)
  | group {isNested : Bool} {lead contents closing s : Bytes} {number other : UInt32}
      {inside rest : Forest} : EncodesTag lead ⟨number, .startGroup⟩ →
      IsForest true contents inside → EncodesTag closing ⟨other, .endGroup⟩ →
      IsForest isNested s rest →
      IsForest isNested (lead ++ (contents ++ closing) ++ s)
        (.cons ⟨lead, ⟨number, .startGroup⟩, contents ++ closing⟩ inside rest)
  | closing {lead s : Bytes} {number : UInt32} {rest : Forest} :
      EncodesTag lead ⟨number, .endGroup⟩ → IsForest false s rest →
      IsForest false (lead ++ [] ++ s) (.cons ⟨lead, ⟨number, .endGroup⟩, []⟩ .nil rest)

/-- The occurrences in the payload of a field. -/
inductive Field.Encloses (f : Field) : Forest → Prop
  | none : f.tag.wire ≠ .startGroup → Encloses f .nil
  | group {contents : Bytes} {inside : Forest} : f.tag.wire = .startGroup →
      group.eval f.payload = .ok contents → IsForest true contents inside → Encloses f inside

theorem Read.group_eval_length_lt {p contents : Bytes} (h : group.eval p = .ok contents) :
    contents.length < p.length := by
  rw [eval] at h
  split at h
  next rest hgroup =>
    cases h
    obtain ⟨⟨contents, closing⟩, hparts, rfl⟩ := map_eq_ok_iff.1 hgroup
    obtain ⟨-, number, hclosing⟩ := isFields_of_groupParts hparts
    have hpos := List.length_pos_iff.2 (hclosing.reads.ne_nil header_advances)
    have hlength : p.length = (contents ++ closing ++ rest).length :=
      congrArg List.length (closeGroup_eq_ok hparts)
    rw [List.length_append, List.length_append] at hlength
    dsimp only
    omega
  next => cases h

/-! ## From trees to walks -/

section

variable {s : Bytes} {f : Field} {inside rest : Forest} {isNested : Bool}

theorem IsForest.isFields {forest : Forest} (h : IsForest isNested s forest) :
    isNested = true → IsFields s := by
  induction h with
  | nil => exact fun _ => .nil
  | flat hlead hflat _ ih => exact fun hnested => .cons hlead (.flat hflat) (ih hnested)
  | group hlead _ hclosing _ ihcontents ih =>
    exact fun hnested => .cons hlead (.group (ihcontents rfl) hclosing) (ih hnested)
  | closing => exact fun hnested => absurd hnested (by simp)

/-- The first occurrence of a tree is read off the front, and the others are the tree of what is
left. -/
theorem IsForest.exists_eq_append (h : IsForest isNested s (.cons f inside rest)) :
    ∃ p, s = f.bytes ++ p ∧ f.Framed ∧ (isNested = true → f.tag.wire ≠ .endGroup) ∧
      f.Encloses inside ∧ IsForest isNested p rest := by
  cases h with
  | flat hlead hflat hrest =>
    have hpayload := (IsPayload.flat hflat).reads
    exact ⟨_, rfl, ⟨hlead.reads, hpayload⟩, fun _ => hflat.ne_endGroup,
      .none hflat.ne_startGroup, hrest⟩
  | @group _ _ contents closing _ _ _ _ _ hlead hinside hclosing hrest =>
    have hcontents : IsFields contents := hinside.isFields rfl
    have hgroup : Reads Read.group (contents ++ closing) contents :=
      (reads_groupParts hclosing.reads hcontents.passes).map Prod.fst
    exact ⟨_, rfl, ⟨hlead.reads, (IsPayload.group hcontents hclosing).reads⟩, by simp,
      .group rfl hgroup.eval hinside, hrest⟩
  | closing hlead hrest =>
    exact ⟨_, rfl, ⟨hlead.reads, fun _ => rfl⟩, by simp, .none (by simp), hrest⟩

theorem Walk.ofMessage_cons (hf : f.Framed) (s : Bytes) :
    Walk.ofMessage (f.bytes ++ s) =
      ⟨f :: (Walk.ofMessage s).fields, (Walk.ofMessage s).ending⟩ := by
  have happend := Walk.ofMessage_append (List.forall_mem_singleton.2 hf) s
  rwa [List.flatMap_singleton] at happend

theorem IsForest.walk_eq {forest : Forest} (h : IsForest isNested s forest) :
    Walk.ofMessage s = ⟨forest.fields, .complete⟩ := by
  induction forest generalizing s with
  | nil =>
    cases h
    exact Walk.walkFrom_nil #[]
  | cons f inside rest _ ih =>
    obtain ⟨p, rfl, hf, -, -, hrest⟩ := h.exists_eq_append
    rw [Walk.ofMessage_cons hf, ih hrest]
    rfl

theorem IsForest.fields_eq {isNested' : Bool} {forest forest' : Forest}
    (h : IsForest isNested s forest) (h' : IsForest isNested' s forest') :
    forest.fields = forest'.fields :=
  congrArg Walk.fields (h.walk_eq.symm.trans h'.walk_eq)

/-- A byte string has no more than one tree. -/
theorem IsForest.unique {isNested' : Bool} {forest forest' : Forest}
    (h : IsForest isNested s forest) (h' : IsForest isNested' s forest') : forest = forest' := by
  induction forest generalizing isNested isNested' s forest' with
  | nil =>
    cases forest' with
    | nil => rfl
    | cons => cases h.fields_eq h'
  | cons f inside rest ihinside ih =>
    cases forest' with
    | nil => cases h.fields_eq h'
    | cons g inside' rest' =>
      obtain rfl : f = g := (List.cons.inj (h.fields_eq h')).1
      obtain ⟨p, rfl, -, -, hinside, hrest⟩ := h.exists_eq_append
      obtain ⟨q, hq, -, -, hinside', hrest'⟩ := h'.exists_eq_append
      obtain rfl := List.append_cancel_left hq
      rw [ih hrest hrest']
      congr 1
      cases hinside with
      | none hwire =>
        cases hinside' with
        | none => rfl
        | group hwire' => exact absurd hwire' hwire
      | group hwire heval hcontents =>
        cases hinside' with
        | none hwire' => exact absurd hwire hwire'
        | group _ heval' hcontents' =>
          cases heval.symm.trans heval'
          exact ihinside hcontents hcontents'

/-! ## From walks to trees -/

/-- What a tag and its payload become, in front of any other occurrences. -/
def Field.HasForest (f : Field) : Prop :=
  ∃ inside, ∀ isNested s rest, IsForest isNested s rest →
    IsForest isNested (f.lead ++ f.payload ++ s) (.cons f inside rest)

mutual

theorem IsFields.exists_isForest {s : Bytes} : IsFields s → ∃ forest, IsForest true s forest
  | .nil => ⟨.nil, .nil⟩
  | .cons hlead hpayload hrest => by
    obtain ⟨inside, hcons⟩ := hpayload.hasForest hlead
    obtain ⟨rest, hrest⟩ := hrest.exists_isForest
    exact ⟨_, hcons _ _ _ hrest⟩

theorem IsPayload.hasForest {lead p : Bytes} {number : UInt32} {wire : WireType} :
    IsPayload wire p → EncodesTag lead ⟨number, wire⟩ →
      Field.HasForest ⟨lead, ⟨number, wire⟩, p⟩
  | .flat hflat, hlead => ⟨.nil, fun _ _ _ => .flat hlead hflat⟩
  | .group hcontents hclosing, hlead => by
    obtain ⟨inside, hinside⟩ := hcontents.exists_isForest
    exact ⟨inside, fun _ _ _ => .group hlead hinside hclosing⟩

end

theorem Field.IsEncoded.exists_isForest (hf : f.IsEncoded) (h : IsForest false s rest) :
    ∃ inside, IsForest false (f.bytes ++ s) (.cons f inside rest) := by
  obtain ⟨lead, ⟨number, wire⟩, payload⟩ := f
  obtain ⟨hlead, hpayload⟩ := hf
  split at hpayload
  next hend =>
    obtain rfl : wire = .endGroup := hend
    obtain rfl : payload = [] := hpayload
    exact ⟨.nil, .closing hlead h⟩
  next =>
    obtain ⟨inside, hcons⟩ := hpayload.hasForest hlead
    exact ⟨inside, hcons _ _ _ h⟩

theorem exists_isForest_of_isEncoded {fields : List Field} (h : ∀ f ∈ fields, f.IsEncoded) :
    ∃ forest, IsForest false (fields.flatMap Field.bytes) forest := by
  induction fields with
  | nil => exact ⟨.nil, .nil⟩
  | cons f fields ih =>
    rw [List.forall_mem_cons] at h
    obtain ⟨rest, hrest⟩ := ih h.2
    obtain ⟨inside, hcons⟩ := h.1.exists_isForest hrest
    exact ⟨_, hcons⟩

/-- The byte strings that have a tree are those whose walk ends properly. -/
theorem exists_isForest_iff :
    (∃ forest, IsForest false s forest) ↔ (Walk.ofMessage s).ending = .complete := by
  constructor
  · rintro ⟨forest, h⟩
    rw [h.walk_eq]
  · intro h
    have hwalk : Walk.ofMessage s = ⟨(Walk.ofMessage s).fields, .complete⟩ := by rw [← h]
    obtain ⟨hencoded, hs⟩ := Walk.ofMessage_eq_iff.1 hwalk
    rw [hs]
    exact exists_isForest_of_isEncoded hencoded

end

/-! ## What a walk meets -/

namespace Walk

variable {w : Walk} {f : Field}

/-- The occurrence is one that the walk finds, or the one at which it fails. -/
def Meets (w : Walk) (f : Field) : Prop :=
  f ∈ w.fields ∨ ∃ cause, w.ending = .badPayload f cause

/-- Only what a visitor does at the occurrences that a walk meets is of any account. -/
theorem visit_congr {σ : Type} {v v' : Field → EStateM Corruption σ Unit}
    (h : ∀ f, w.Meets f → v f = v' f) : w.visit v = w.visit v' := by
  obtain ⟨fields, ending⟩ := w
  induction fields with
  | nil =>
    rw [visit_nil, visit_nil]
    cases ending with
    | complete | malformed e => rfl
    | badPayload f e =>
      dsimp only
      rw [h f (.inr ⟨e, rfl⟩)]
  | cons f fields ih =>
    rw [visit_cons, visit_cons, h f (.inl List.mem_cons_self),
      ih fun g hg => h g (hg.imp_left (List.mem_cons_of_mem f))]

theorem walkFrom_payload_length_lt (seen : Array Field) (s : Bytes)
    (h : (walkFrom seen s).Meets f) : f ∈ seen ∨ f.payload.length < s.length := by
  fun_induction walkFrom seen s with
  | case1 seen s | case2 seen s =>
    rcases h with hmem | ⟨cause, hending⟩
    · exact .inl (by simpa using hmem)
    · cases hending
  | case3 seen s _ lead tag afterTag hhead =>
    rcases h with hmem | ⟨cause, hending⟩
    · exact .inl (by simpa using hmem)
    · cases hending
      exact .inr (header_advances hhead)
  | case4 seen s _ lead tag afterTag hhead payload rest hpay ih =>
    have hlt := header_advances hhead
    have hlength := congrArg List.length (payload_eq_ok hpay).1
    rw [List.length_append] at hlength
    rcases ih h with hmem | hlength'
    · rcases Array.mem_push.1 hmem with hmem | rfl
      · exact .inl hmem
      · exact .inr (by dsimp only; omega)
    · exact .inr (by omega)

theorem Meets.payload_length_lt {s : Bytes} (h : (ofMessage s).Meets f) :
    f.payload.length < s.length :=
  (walkFrom_payload_length_lt #[] s h).resolve_left (by simp)

end Walk

end WireColumns
