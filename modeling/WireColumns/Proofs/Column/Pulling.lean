import WireColumns.Proofs.Column.Session
import WireColumns.Proofs.Wire.Callers
import WireColumns.Proofs.Wire.Framing

/-! # Dispatch by a reader

The occurrences of a message can be given to the collectors while a reader asks for one tag after
the other (`Collector.pullMessage`). A collector takes from the reader what it has use for, and what
it leaves is skipped. The reader can object that there is no payload to read, or that a kind does
not suit; it never does, and the outcome is that of passing over the occurrences of the message
(`Collector.pulls_pullMessage`). -/

namespace WireColumns

/-- Both have succeeded or failed in the same way: the one that can fail in any way has failed at
corrupt input. -/
inductive Pulls {σ α : Type} : EStateM.Result Corruption σ Unit → EStateM.Result Error σ α → Prop
  | ok (a : α) (s : σ) : Pulls (.ok () s) (.ok a s)
  | error (e : Corruption) (s : σ) : Pulls (.error e s) (.error (.corrupt e) s)

theorem Pulls.ok_or_error {σ α : Type} {x : EStateM.Result Corruption σ Unit}
    {y : EStateM.Result Error σ α} (H : Pulls x y) :
    (∃ a s, x = .ok () s ∧ y = .ok a s) ∨ ∃ e s, x = .error e s ∧ y = .error (.corrupt e) s := by
  cases H with
  | ok a s => exact .inl ⟨a, s, rfl, rfl⟩
  | error e s => exact .inr ⟨e, s, rfl, rfl⟩

open Read

namespace Reader

variable {α : Type} {r r' r₁ r₂ : Reader} {p : Bytes} {kind : FieldKind} {walk : Walk}

/-! ## One payload -/

/-- Takes the values that the pending payload has for a field of a kind: one value if the payload
has the kind's wire type, or those of a packed run. Any other payload stays pending. -/
def pullValues (kind : FieldKind) (r : Reader) : List Value × Except Error Reader :=
  if r.wire = kind.wireType then
    match take kind.read r with
    | .ok value r => ([value], .ok r)
    | .error e _ => ([], .error e)
  else if kind.isPackable ∧ r.wire = .lengthDelimited then
    match take lengthDelimited r with
    | .ok run r =>
      let reading := kind.readPacked run
      match reading.failure? with
      | none => (reading.values, .ok r)
      | some e => (reading.values, .error (.corrupt e))
    | .error e _ => ([], .error e)
  else ([], .ok r)

/-- The bytes are those of the pending payload. If that does not end, they are all that is left. -/
structure HasPayload (r : Reader) (p : Bytes) : Prop where
  pending : r.pending = true
  bytes : p = r.cursor.rest ∨ ∃ rest, payload r.wire r.cursor.rest = .ok p rest

theorem take_cases (hpending : r.pending = true) (read : Read α) :
    (∃ a r', read.eval r.cursor.rest = .ok a ∧ take read r = .ok a r') ∨
      ∃ e, read.eval r.cursor.rest = .error e ∧ take read r = .error (.corrupt e) r := by
  rw [take, if_pos hpending, Read.eval, Cursor.run]
  cases read r.cursor.rest with
  | ok a rest => exact .inl ⟨a, _, rfl, rfl⟩
  | error e rest => exact .inr ⟨e, rfl, rfl⟩

theorem HasPayload.eval_eq {read : Read α} (h : r.HasPayload p)
    (hread : ∀ {rest}, payload r.wire r.cursor.rest = .ok p rest →
      read.eval r.cursor.rest = read.eval p) : read.eval p = read.eval r.cursor.rest := by
  obtain rfl | ⟨rest, hp⟩ := h.bytes
  · rfl
  · exact (hread hp).symm

/-- What a collector takes from a reader is what it makes of the payload. -/
theorem HasPayload.pullValues_eq (h : r.HasPayload p) (kind : FieldKind) :
    (pullValues kind r).1 = (kind.interpret r.wire p).values ∧
      ((kind.interpret r.wire p).failure? = none ∧ (∃ r', (pullValues kind r).2 = .ok r') ∨
        ∃ e, (kind.interpret r.wire p).failure? = some e ∧
          (pullValues kind r).2 = .error (.corrupt e)) := by
  rw [pullValues, FieldKind.interpret]
  by_cases hwire : r.wire = kind.wireType
  · rw [if_pos hwire, if_pos hwire, h.eval_eq fun hp => FieldKind.eval_of_payload (hwire ▸ hp)]
    obtain ⟨v, r', hv, htake⟩ | ⟨e, he, htake⟩ := take_cases h.pending kind.read
    · rw [hv, htake]
      exact ⟨rfl, .inl ⟨rfl, r', rfl⟩⟩
    · rw [he, htake]
      exact ⟨rfl, .inr ⟨e, rfl, rfl⟩⟩
  rw [if_neg hwire, if_neg hwire]
  by_cases hrun : kind.isPackable = true ∧ r.wire = .lengthDelimited
  · rw [if_pos hrun, if_pos hrun,
      h.eval_eq fun hp => lengthDelimited_eval_of_payload (hrun.2 ▸ hp)]
    obtain ⟨run, r', hdata, htake⟩ | ⟨e, he, htake⟩ := take_cases h.pending lengthDelimited
    · rw [hdata, htake]
      dsimp only
      cases hfailure : (kind.readPacked run).failure? with
      | none => exact ⟨rfl, .inl ⟨rfl, r', rfl⟩⟩
      | some e => exact ⟨rfl, .inr ⟨e, rfl, rfl⟩⟩
    · rw [he, htake]
      exact ⟨rfl, .inr ⟨e, rfl, rfl⟩⟩
  · rw [if_neg hrun, if_neg hrun]
    exact ⟨rfl, .inl ⟨rfl, r, rfl⟩⟩

/-- A group is read if its payload is one, whatever stands behind it. -/
theorem HasPayload.readValue_group (h : r.HasPayload p) (hwire : r.wire = .startGroup) :
    (∃ contents r', group.eval p = .ok contents ∧
        readValue .bytes .group r = .ok (.bytes contents) r') ∨
      ∃ e, group.eval p = .error e ∧ readValue .bytes .group r = .error (.corrupt e) r := by
  have hread : readValue .bytes .group r = take FieldKind.group.read r := by
    rw [readValue, if_neg (by decide)]
    exact if_neg (not_not.2 hwire)
  rw [hread, h.eval_eq fun hp => group_eval_of_payload (hwire ▸ hp)]
  have hcases := take_cases h.pending FieldKind.group.read
  simp only [FieldKind.read, eval_map] at hcases ⊢
  cases hcontents : group.eval r.cursor.rest with
  | ok contents =>
    rw [hcontents] at hcases
    obtain ⟨v, r', hv, htake⟩ | ⟨e, he, -⟩ := hcases
    · cases hv
      exact .inl ⟨contents, r', rfl, htake⟩
    · cases he
  | error e =>
    rw [hcontents] at hcases
    obtain ⟨v, r', hv, -⟩ | ⟨e, he, htake⟩ := hcases
    · cases hv
    · cases he
      exact .inr ⟨e, rfl, htake⟩

/-- What is taken does not change where the payload ends. -/
theorem skip_of_pullValues (h : (pullValues kind r).2 = .ok r') : skip r' = skip r := by
  rw [pullValues] at h
  split at h
  next hwire =>
    split at h
    next htake =>
      cases h
      exact skip_of_skip (skip_of_take htake fun _ hv => hwire ▸ FieldKind.payload_of_read hv)
    next => cases h
  next =>
    split at h
    next hrun =>
      split at h
      next htake =>
        dsimp only at h
        split at h
        next =>
          cases h
          exact skip_of_skip (skip_of_take_run hrun.2 htake)
        next => cases h
      next => cases h
    next =>
      cases h
      rfl

/-! ## One occurrence -/

theorem ofMessage_of_readTag_none (h : readTag r = .ok none r') :
    Walk.ofMessage r.cursor.rest = ⟨[], .complete⟩ := by
  rw [readTag_eq_none h]
  exact Walk.walkFrom_nil #[]

theorem ofMessage_of_readTag_error {e : Error} (h : readTag r = .error e r') :
    ∃ cause, e = .corrupt cause ∧ Walk.ofMessage r.cursor.rest = ⟨[], .malformed cause⟩ := by
  rw [readTag] at h
  split at h
  next => cases h
  next hmore =>
    rw [Cursor.isAtEnd_iff] at hmore
    split at h
    next => cases h
    next cause cursor hrun =>
      cases h
      obtain ⟨rest, htag, -⟩ := Cursor.run_eq_error_iff.1 hrun
      exact ⟨cause, rfl, Walk.ofMessage_of_header_error hmore (map_eq_error_iff.1 htag)⟩

theorem skip_of_payload_error {e : Corruption} {rest : Bytes} (hpending : r.pending = true)
    (h : payload r.wire r.cursor.rest = .error e rest) :
    ∃ r', skip r = .error (.corrupt e) r' := by
  rw [skip, hpending, if_pos rfl, Cursor.run_eq_error_iff.2 ⟨rest, h, rfl⟩]
  exact ⟨_, rfl⟩

/-- The tag that a reader finds is that of the first occurrence in what is left. The payload of the
occurrence is the one that is pending then. -/
theorem ofMessage_of_readTag_some {tag : Tag} (h : readTag r = .ok (some tag) r₁) :
    ∃ f : Field, f.tag = tag ∧ f.tag.wire = r₁.wire ∧ r₁.HasPayload f.payload ∧
      ((∃ r₂, skip r₁ = .ok () r₂ ∧ Walk.ofMessage r.cursor.rest =
          ⟨f :: (Walk.ofMessage r₂.cursor.rest).fields, (Walk.ofMessage r₂.cursor.rest).ending⟩) ∨
        ∃ e r₂, skip r₁ = .error (.corrupt e) r₂ ∧
          Walk.ofMessage r.cursor.rest = ⟨[], .badPayload f e⟩) := by
  rw [readTag] at h
  split at h
  next => cases h
  next hmore =>
    rw [Cursor.isAtEnd_iff] at hmore
    split at h
    next hrun =>
      cases h
      obtain ⟨afterTag, htag, rfl⟩ := Cursor.run_eq_ok_iff.1 hrun
      obtain ⟨⟨lead, tag⟩, hheader, rfl⟩ := map_eq_ok_iff.1 htag
      obtain ⟨hrest, hlead⟩ := header_eq_ok hheader
      have hafter := Cursor.rest_moveTo hrest
      generalize r.cursor.moveTo _ = cursor at hafter
      cases hpayload : payload tag.wire cursor.rest with
      | ok p rest =>
        obtain ⟨hp, hreads⟩ := payload_eq_ok hpayload
        have hskip := skip_of_payload (r := ⟨cursor, tag.wire, true⟩) rfl hpayload
        refine ⟨⟨lead, tag, p⟩, rfl, rfl, ⟨rfl, .inr ⟨rest, hpayload⟩⟩, .inl ⟨_, hskip, ?_⟩⟩
        have hframed : ∀ f ∈ [(⟨lead, tag, p⟩ : Field)], f.Framed :=
          List.forall_mem_singleton.2 ⟨hlead, hreads⟩
        have happend := Walk.ofMessage_append hframed rest
        rw [List.flatMap_singleton, Field.bytes, List.append_assoc] at happend
        rw [behind, Cursor.rest_moveTo hp, hrest, ← hafter, hp]
        exact happend
      | error e rest =>
        obtain ⟨r₂, hskip⟩ := skip_of_payload_error (r := ⟨cursor, tag.wire, true⟩) rfl hpayload
        rw [hafter] at hpayload
        exact ⟨⟨lead, tag, afterTag⟩, rfl, rfl, ⟨rfl, .inl hafter.symm⟩,
          .inr ⟨e, r₂, hskip, Walk.ofMessage_of_payload_error hheader hpayload⟩⟩
    next => cases h

/-! ## What is ahead -/

/-- The occurrences behind the pending payload, up to a tag that closes a group. Behind a payload
that does not end there are none. -/
inductive Ahead (r : Reader) : Walk → Prop
  | behind {r' : Reader} (h : skip r = .ok () r') :
    Ahead r (Walk.ofMessage r'.cursor.rest).untilEndGroup
  | stuck {r' : Reader} {e : Corruption} (h : skip r = .error (.corrupt e) r') :
    Ahead r ⟨[], .malformed e⟩

theorem Ahead.congr (h : Ahead r₁ walk) (hskip : skip r₂ = skip r₁) : Ahead r₂ walk := by
  cases h with
  | behind h => exact .behind (hskip.trans h)
  | stuck h => exact .stuck (hskip.trans h)

theorem ahead_ofMessage (message : Bytes) :
    Ahead (ofMessage message) (Walk.ofMessage message).untilEndGroup :=
  .behind (skip_of_not_pending rfl)

theorem Ahead.eq_of_none (h : Ahead r walk) (hnext : nextTag r = .ok none r') :
    walk = ⟨[], .complete⟩ := by
  cases h with
  | behind h =>
    rw [nextTag_eq, h] at hnext
    rw [ofMessage_of_readTag_none hnext]
    exact Walk.untilEndGroup_eq_self (List.forall_mem_nil _) _
  | stuck h => cases (nextTag_of_skip_error h).symm.trans hnext

theorem Ahead.eq_of_error (h : Ahead r walk) {e : Error} (hnext : nextTag r = .error e r') :
    ∃ cause, e = .corrupt cause ∧ walk = ⟨[], .malformed cause⟩ := by
  cases h with
  | behind h =>
    rw [nextTag_eq, h] at hnext
    obtain ⟨cause, rfl, hwalk⟩ := ofMessage_of_readTag_error hnext
    rw [hwalk]
    exact ⟨cause, rfl, Walk.untilEndGroup_eq_self (List.forall_mem_nil _) _⟩
  | stuck h =>
    cases (nextTag_of_skip_error h).symm.trans hnext
    exact ⟨_, rfl, rfl⟩

/-- Behind a tag that closes a group there may be no bytes. -/
theorem Ahead.eq_of_endGroup (h : Ahead r walk) {tag : Tag}
    (hnext : nextTag r = .ok (some tag) r₁) (hend : tag.wire = .endGroup) :
    walk = ⟨[], if r₁.cursor.isAtEnd then .complete else .malformed .bytesAfterEndGroup⟩ := by
  cases h with
  | behind h =>
    rw [nextTag_eq, h] at hnext
    obtain ⟨f, rfl, hwire, hpayload, hwalk⟩ := ofMessage_of_readTag_some hnext
    -- the tag has no payload, which is never cut short
    have hnone : payload r₁.wire r₁.cursor.rest = .ok [] r₁.cursor.rest := by
      rw [← hwire, hend]
      rfl
    have hskip := skip_of_payload hpayload.pending hnone
    obtain ⟨r₂, hr₂, hwalk⟩ | ⟨e, r₂, hr₂, -⟩ := hwalk
    · cases hskip.symm.trans hr₂
      rw [hwalk, Walk.untilEndGroup_closing_ofMessage hend, Reader.behind,
        Cursor.rest_moveTo (List.nil_append _).symm]
      simp only [Cursor.isAtEnd_iff]
    · cases hskip.symm.trans hr₂
  | stuck h => cases (nextTag_of_skip_error h).symm.trans hnext

/-- The occurrence of any other tag is visited first, then what is ahead from there. -/
theorem Ahead.visit_of_some (h : Ahead r walk) {tag : Tag}
    (hnext : nextTag r = .ok (some tag) r₁) (hend : tag.wire ≠ .endGroup) :
    ∃ (f : Field) (walk₁ : Walk), f.tag = tag ∧ f.tag.wire = r₁.wire ∧ r₁.HasPayload f.payload ∧
      Ahead r₁ walk₁ ∧ ∀ {σ : Type} (v : Field → EStateM Corruption σ Unit),
        walk.visit v = v f >>= fun _ => walk₁.visit v := by
  cases h with
  | behind h =>
    rw [nextTag_eq, h] at hnext
    obtain ⟨f, rfl, hwire, hpayload, ⟨r₂, hskip, hwalk⟩ | ⟨e, r₂, hskip, hwalk⟩⟩ :=
      ofMessage_of_readTag_some hnext
    · refine ⟨f, _, rfl, hwire, hpayload, .behind hskip, fun v => ?_⟩
      rw [hwalk, Walk.untilEndGroup_plain hend, Walk.visit_cons]
    · refine ⟨f, _, rfl, hwire, hpayload, .stuck hskip, fun v => ?_⟩
      rw [hwalk, Walk.untilEndGroup_eq_self (List.forall_mem_nil _), Walk.visit_nil, Walk.visit_nil]
  | stuck h => cases (nextTag_of_skip_error h).symm.trans hnext

end Reader

namespace Dispatch

open Reader (HasPayload pullValues skip_of_pullValues)

variable {d d' : Dispatch} {r r' : Reader} {p : Bytes} {f : Field} {index : Int} {place : Nat}
  {tag : Tag} {messageSetItems : Bool}

/-- Gives the pending payload to the collector at a place, if there is one. -/
def pull (place : Nat) (index : Int) (r : Reader) : EStateM Error Dispatch Reader := fun d =>
  match d.collectors[place]? with
  | none => .ok r d
  | some c =>
    let pulled := r.pullValues c.kind
    let d := { d with collectors := d.collectors.modify place (·.commitAll pulled.1 index) }
    match pulled.2 with
    | .ok r => .ok r d
    | .error e => .error e d

/-- Gives the pending payload of an ordinary field to its collector. -/
def pullField (tag : Tag) (index : Int) (r : Reader) : EStateM Error Dispatch Reader := fun d =>
  let place := seek tag.number d.collectors (if tag.number < d.lastNumber then 0 else d.next)
  let d := ⟨d.collectors, tag.number, place⟩
  if d.collectors[place]?.map Collector.number == some tag.number then pull place index r d
  else .ok r d

/-- Gives the message of a message-set item to the collector of the field it stands for. -/
def pullItem (index : Int) (r : Reader) : EStateM Error Dispatch Reader := fun d =>
  match Reader.readValue .bytes .group r with
  | .error e _ => .error e d
  | .ok value r =>
    match MessageSetItem.parse (value.bytes?.getD []) with
    | .error e => .error (.corrupt e) d
    | .ok item =>
      match d.collectors.findIdx? (·.number == item.typeId) with
      | none => .ok r d
      | some place =>
        match pull place index (.ofPayload item.encoded .lengthDelimited) d with
        | .ok _ d => .ok r d
        | .error e d => .error e d

/-- Gives the pending payload to the collector it is for. -/
def pullOccurrence (messageSetItems : Bool) (tag : Tag) (index : Int) (r : Reader) :
    EStateM Error Dispatch Reader :=
  if messageSetItems && tag == Tag.messageSetItem then pullItem index r
  else pullField tag index r

theorem pulls_pull (h : r.HasPayload p) (place : Nat) (index : Int) (d : Dispatch) :
    Pulls (deliver place r.wire p index d) (pull place index r d) := by
  rw [deliver, pull]
  cases d.collectors[place]? with
  | none => exact .ok r d
  | some c =>
    obtain ⟨hvalues, ⟨hnone, r', hr'⟩ | ⟨e, he, herror⟩⟩ := h.pullValues_eq c.kind
    · dsimp only
      rw [hvalues, hnone, hr']
      exact .ok ..
    · dsimp only
      rw [hvalues, he, herror]
      exact .error ..

theorem pulls_pullField (h : r.HasPayload f.payload) (hwire : f.tag.wire = r.wire) (index : Int)
    (d : Dispatch) : Pulls (routeField f index d) (pullField f.tag index r d) := by
  rw [routeField_eq, pullField, hwire]
  generalize seek f.tag.number d.collectors _ = place
  dsimp only
  split
  · exact pulls_pull h ..
  · exact .ok ..

theorem pulls_pullItem (h : r.HasPayload p) (hwire : r.wire = .startGroup) (index : Int)
    (d : Dispatch) : Pulls (routeItem p index d) (pullItem index r d) := by
  rw [routeItem_eq, pullItem]
  obtain ⟨contents, r', hcontents, hread⟩ | ⟨e, he, hread⟩ := h.readValue_group hwire
  · rw [hcontents, hread]
    dsimp only [Value.bytes?, Option.getD]
    cases MessageSetItem.parse contents with
    | error e => exact .error ..
    | ok item =>
      dsimp only
      cases d.collectors.findIdx? (·.number == item.typeId) with
      | none => exact .ok ..
      | some place =>
        -- the message of the item is given to a reader of its own
        have hitem : (Reader.ofPayload item.encoded .lengthDelimited).HasPayload item.encoded :=
          ⟨rfl, .inl rfl⟩
        have hpulls : Pulls (deliver place .lengthDelimited item.encoded index d) _ :=
          pulls_pull hitem place index d
        dsimp only
        obtain ⟨_, d', hx, hy⟩ | ⟨e, d', hx, hy⟩ := hpulls.ok_or_error
        · rw [hx, hy]
          exact .ok ..
        · rw [hx, hy]
          exact .error ..
  · rw [he, hread]
    exact .error ..

theorem pulls_pullOccurrence (h : r.HasPayload f.payload) (hwire : f.tag.wire = r.wire)
    (messageSetItems : Bool) (index : Int) (d : Dispatch) :
    Pulls (route messageSetItems index f d) (pullOccurrence messageSetItems f.tag index r d) := by
  rw [route, pullOccurrence]
  split
  next hitem =>
    rw [Bool.and_eq_true, beq_iff_eq] at hitem
    exact pulls_pullItem h (by rw [← hwire, hitem.2, Tag.messageSetItem]) index d
  next => exact pulls_pullField h hwire index d

/-! ## Where the payload ends -/

theorem skip_of_pull (h : pull place index r d = .ok r' d') : Reader.skip r' = Reader.skip r := by
  rw [pull] at h
  split at h
  next =>
    cases h
    rfl
  next =>
    dsimp only at h
    split at h
    next hpulled =>
      cases h
      exact skip_of_pullValues hpulled
    next => cases h

/-- Whatever a collector takes, the payload ends at the same place. -/
theorem skip_of_pullOccurrence (h : pullOccurrence messageSetItems tag index r d = .ok r' d') :
    Reader.skip r' = Reader.skip r := by
  rw [pullOccurrence] at h
  split at h
  next =>
    rw [pullItem] at h
    split at h
    next => cases h
    next hread =>
      have hskip := Reader.skip_of_skip (Reader.skip_of_readValue hread)
      split at h
      next => cases h
      next =>
        split at h
        next =>
          cases h
          exact hskip
        next =>
          split at h
          next =>
            cases h
            exact hskip
          next => cases h
  next =>
    rw [pullField] at h
    generalize seek tag.number d.collectors _ = place at h
    dsimp only at h
    split at h
    next => exact skip_of_pull h
    next =>
      cases h
      rfl

/-! ## The occurrences of a message -/

/-- Gives to the collectors what is left for a reader. A tag that closes a group must be the last
one. -/
def pullFrom (messageSetItems : Bool) (index : Int) (r : Reader) : EStateM Error Dispatch Unit :=
  fun d =>
    match _hnext : Reader.nextTag r with
    | .error e _ => .error e d
    | .ok none _ => .ok () d
    | .ok (some tag) r =>
      if tag.wire = .endGroup then
        if r.cursor.isAtEnd then .ok () d else .error (.corrupt .bytesAfterEndGroup) d
      else
        match _hpull : pullOccurrence messageSetItems tag index r d with
        | .error e d => .error e d
        | .ok r d => pullFrom messageSetItems index r d
termination_by r.left
decreasing_by
  rw [Reader.left_congr (skip_of_pullOccurrence _hpull)]
  exact Reader.left_lt _hnext

/-- Pulling what is ahead of a reader comes to the same as passing over it. -/
theorem pulls_pullFrom {walk : Walk} (h : r.Ahead walk) (messageSetItems : Bool) (index : Int)
    (d : Dispatch) :
    Pulls (walk.visit (route messageSetItems index) d) (pullFrom messageSetItems index r d) := by
  fun_induction pullFrom messageSetItems index r d generalizing walk with
  | case1 r d e r' hnext =>
    obtain ⟨cause, rfl, rfl⟩ := h.eq_of_error hnext
    exact .error ..
  | case2 r d r' hnext =>
    rw [h.eq_of_none hnext]
    exact .ok ..
  | case3 r d tag r₁ hnext hend hlast =>
    rw [h.eq_of_endGroup hnext hend, if_pos hlast]
    exact .ok ..
  | case4 r d tag r₁ hnext hend hlast =>
    rw [h.eq_of_endGroup hnext hend, if_neg hlast]
    exact .error ..
  | case5 r d tag r₁ hnext hend e d' hpull =>
    obtain ⟨f, walk₁, rfl, hwire, hpayload, -, hvisit⟩ := h.visit_of_some hnext hend
    have hpulls := pulls_pullOccurrence hpayload hwire messageSetItems index d
    rw [hvisit]
    simp only [bind, EStateM.bind]
    obtain ⟨_, _, -, hy⟩ | ⟨cause, _, hx, hy⟩ := hpulls.ok_or_error
    · cases hpull.symm.trans hy
    · cases hpull.symm.trans hy
      rw [hx]
      exact .error ..
  | case6 r d tag r₁ hnext hend r₂ d' hpull ih =>
    obtain ⟨f, walk₁, rfl, hwire, hpayload, hahead, hvisit⟩ := h.visit_of_some hnext hend
    have hpulls := pulls_pullOccurrence hpayload hwire messageSetItems index d
    rw [hvisit]
    simp only [bind, EStateM.bind]
    obtain ⟨_, _, hx, hy⟩ | ⟨cause, _, -, hy⟩ := hpulls.ok_or_error
    · cases hpull.symm.trans hy
      rw [hx]
      exact ih (hahead.congr (skip_of_pullOccurrence hpull))
    · cases hpull.symm.trans hy

end Dispatch

namespace Collector

/-- Gives every occurrence that a reader finds in a message to the collector it is for. -/
def pullMessage (messageSetItems : Bool) (message : Bytes) (index : Int) :
    EStateM Error (Array Collector) Unit := fun collectors =>
  match Dispatch.pullFrom messageSetItems index (.ofMessage message) { collectors } with
  | .ok _ d => .ok () d.collectors
  | .error e d => .error e d.collectors

/-- Pulling the occurrences of a message comes to the same as passing over them. It fails at corrupt
messages only. -/
theorem pulls_pullMessage (messageSetItems : Bool) (message : Bytes) (index : Int)
    (cs : Array Collector) :
    Pulls (dispatchMessage messageSetItems message index cs)
      (pullMessage messageSetItems message index cs) := by
  have hpulls := Dispatch.pulls_pullFrom (Reader.ahead_ofMessage message) messageSetItems index
    { collectors := cs }
  rw [pullMessage, dispatchMessage]
  obtain ⟨_, d, hx, hy⟩ | ⟨e, d, hx, hy⟩ := hpulls.ok_or_error
  · rw [hx, hy]
    exact .ok ..
  · rw [hx, hy]
    exact .error ..

end Collector

end WireColumns
