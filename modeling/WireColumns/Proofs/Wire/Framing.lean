import WireColumns.Proofs.Wire.Locality

/-! # How a walk cuts a message

A walk is the only way to cut a message into occurrences, each of which is read from its own bytes
(`Field.Framed`): the occurrences found make up the message up to the place where the walk ends
(`Walk.ofMessage_cuts`), and a message made of such occurrences is cut into just these
(`Walk.walkFrom_framed`). A message cut off within an occurrence is one whose walk does not end
properly (`Walk.ofMessage_cut_off`). -/

namespace WireColumns

open Read

/-- The occurrence is read from its bytes whatever follows them. -/
structure Field.Framed (f : Field) : Prop where
  reads_lead : Reads header f.lead (f.lead, f.tag)
  reads_payload : Reads (Read.payload f.tag.wire) f.payload f.payload

namespace Walk

variable {f : Field} {fields : List Field} {s p q : Bytes}

theorem walkFrom_append (hf : f.Framed) (seen : Array Field) (rest : Bytes) :
    walkFrom seen (f.bytes ++ rest) = walkFrom (seen.push f) rest := by
  have hempty : (f.bytes ++ rest).isEmpty = false := by
    simp [Field.bytes, hf.reads_lead.ne_nil header_advances]
  have hhead := hf.reads_lead (f.payload ++ rest)
  rw [← List.append_assoc] at hhead
  rw [walkFrom, hempty, if_neg Bool.false_ne_true]
  split
  next herror => cases hhead.symm.trans herror
  next hok =>
    cases hhead.symm.trans hok
    split
    next herror => cases (hf.reads_payload rest).symm.trans herror
    next hok =>
      cases (hf.reads_payload rest).symm.trans hok
      rfl

theorem walkFrom_framed (h : ∀ f ∈ fields, f.Framed) (seen : Array Field) (rest : Bytes) :
    walkFrom seen (fields.flatMap Field.bytes ++ rest) =
      walkFrom (seen ++ fields.toArray) rest := by
  induction fields generalizing seen with
  | nil => simp
  | cons f fields ih =>
    rw [List.forall_mem_cons] at h
    rw [List.flatMap_cons, List.append_assoc, walkFrom_append h.1, ih h.2]
    simp

theorem walkFrom_nil (seen : Array Field) : walkFrom seen [] = ⟨seen.toList, .complete⟩ := by
  rw [walkFrom]
  rfl

theorem ofMessage_framed (h : ∀ f ∈ fields, f.Framed) :
    ofMessage (fields.flatMap Field.bytes) = ⟨fields, .complete⟩ := by
  have hwalk := walkFrom_framed h #[] []
  rw [List.append_nil, walkFrom_nil] at hwalk
  rw [ofMessage, hwalk]
  simp

theorem ofMessage_of_header_error {e : Corruption} {rest : Bytes} (hs : s ≠ [])
    (h : header s = .error e rest) : ofMessage s = ⟨[], .malformed e⟩ := by
  rw [ofMessage, walkFrom, if_neg (by simpa using hs)]
  split
  next herror =>
    cases h.symm.trans herror
    rfl
  next hok => cases h.symm.trans hok

theorem ofMessage_of_payload_error {lead afterTag rest : Bytes} {tag : Tag} {e : Corruption}
    (hhead : header s = .ok (lead, tag) afterTag) (h : payload tag.wire afterTag = .error e rest) :
    ofMessage s = ⟨[], .badPayload ⟨lead, tag, afterTag⟩ e⟩ := by
  have hs : ¬ s.isEmpty = true := by
    intro hnil
    obtain rfl := List.isEmpty_iff.1 hnil
    exact absurd (header_advances hhead) (Nat.not_lt_zero _)
  rw [ofMessage, walkFrom, if_neg hs]
  split
  next herror => cases hhead.symm.trans herror
  next hok =>
    cases hhead.symm.trans hok
    split
    next herror =>
      cases h.symm.trans herror
      rfl
    next hok => cases h.symm.trans hok

/-- What has been seen stands in front of what a walk finds, and changes nothing else. -/
theorem walkFrom_seen (front seen : Array Field) (s : Bytes) :
    walkFrom (front ++ seen) s =
      ⟨front.toList ++ (walkFrom seen s).fields, (walkFrom seen s).ending⟩ := by
  fun_induction walkFrom seen s with
  | case1 seen s hs =>
    rw [walkFrom, if_pos hs, Array.toList_append]
  | case2 seen s hs e rest hh =>
    rw [walkFrom, if_neg hs]
    split
    next herror =>
      cases hh.symm.trans herror
      rw [Array.toList_append]
    next hok => cases hh.symm.trans hok
  | case3 seen s hs lead tag afterTag hh e rest hp =>
    rw [walkFrom, if_neg hs]
    split
    next herror => cases hh.symm.trans herror
    next hok =>
      cases hh.symm.trans hok
      split
      next herror =>
        cases hp.symm.trans herror
        rw [Array.toList_append]
      next hok => cases hp.symm.trans hok
  | case4 seen s hs lead tag afterTag hh payload rest hp ih =>
    rw [walkFrom, if_neg hs]
    split
    next herror => cases hh.symm.trans herror
    next hok =>
      cases hh.symm.trans hok
      split
      next herror => cases hp.symm.trans herror
      next hok =>
        cases hp.symm.trans hok
        rw [Array.push_append, ih]

/-- Occurrences in front of a byte string are found in front of those it has itself. -/
theorem ofMessage_append (h : ∀ f ∈ fields, f.Framed) (s : Bytes) :
    ofMessage (fields.flatMap Field.bytes ++ s) =
      ⟨fields ++ (ofMessage s).fields, (ofMessage s).ending⟩ := by
  rw [ofMessage, walkFrom_framed h, Array.empty_append]
  exact walkFrom_seen fields.toArray #[] s

theorem walkFrom_cuts (seen : Array Field) (s : Bytes) :
    ∃ fields rest, (walkFrom seen s).fields = seen.toList ++ fields ∧
      (∀ f ∈ fields, f.Framed) ∧ s = fields.flatMap Field.bytes ++ rest ∧
      ((walkFrom seen s).ending = .complete ↔ rest = []) := by
  fun_induction walkFrom seen s with
  | case1 seen s hs =>
    obtain rfl : s = [] := List.isEmpty_iff.1 hs
    exact ⟨[], [], by simp, nofun, rfl, by simp⟩
  | case2 seen s hs e rest hh =>
    exact ⟨[], s, by simp, nofun, rfl, by simpa using hs⟩
  | case3 seen s hs lead tag afterTag hh e rest hp =>
    exact ⟨[], s, by simp, nofun, rfl, by simpa using hs⟩
  | case4 seen s hs lead tag afterTag hh payload rest hp ih =>
    obtain ⟨rfl, hlead⟩ := header_eq_ok hh
    obtain ⟨rfl, hpayload⟩ := payload_eq_ok hp
    obtain ⟨fields, tail, hfields, hframed, rfl, hending⟩ := ih
    refine ⟨⟨lead, tag, payload⟩ :: fields, tail, ?_, ?_, ?_, hending⟩
    · rw [hfields]
      simp
    · exact List.forall_mem_cons.2 ⟨⟨hlead, hpayload⟩, hframed⟩
    · rw [List.flatMap_cons, Field.bytes]
      simp only [List.append_assoc]

/-- The occurrences of a message are its bytes, up to where the walk ends. -/
theorem ofMessage_cuts (m : Bytes) :
    ∃ rest, (∀ f ∈ (ofMessage m).fields, f.Framed) ∧
      m = (ofMessage m).fields.flatMap Field.bytes ++ rest ∧
      ((ofMessage m).ending = .complete ↔ rest = []) := by
  obtain ⟨fields, rest, hfields, hframed, hm, hending⟩ := walkFrom_cuts #[] m
  obtain rfl : (ofMessage m).fields = fields := hfields
  exact ⟨rest, hframed, hm, hending⟩

/-! ## Messages that are cut off -/

/-- Within an occurrence there is either no tag or a payload that does not end. -/
theorem walkFrom_cut_off (hf : f.Framed) (hq : q <+: f.bytes) (hne : q ≠ f.bytes) (hnil : q ≠ [])
    (seen : Array Field) :
    ∃ ending, walkFrom seen q = ⟨seen.toList, ending⟩ ∧ ending ≠ .complete := by
  obtain ⟨t, ht⟩ := hq
  have hempty : q.isEmpty = false := by simpa using hnil
  rw [walkFrom, hempty, if_neg Bool.false_ne_true]
  split
  next e rest hh => exact ⟨.malformed e, rfl, fun h => by cases h⟩
  next lead tag afterTag hh =>
    -- the tag is that of the occurrence, so the payload is what has been cut off
    obtain ⟨rfl, hlead⟩ := header_eq_ok hh
    have hsame := hlead (afterTag ++ t)
    rw [← List.append_assoc, ht, Field.bytes, hf.reads_lead] at hsame
    injection hsame with hparts hpayload
    injection hparts with hlead htag
    subst hlead htag
    split
    next e rest hp => exact ⟨.badPayload _ e, rfl, fun h => by cases h⟩
    next payload rest hp =>
      have hshorter := (payload_local _).not_ok_of_shorter hf.reads_payload ⟨t, hpayload.symm⟩
      refine (hshorter ?_ _ _ hp).elim
      intro heq
      exact hne (by rw [Field.bytes, ← heq])

/-- What is left of occurrences that are cut short: some of them, and a part of the next. -/
theorem exists_take_of_shorter (hp : p <+: fields.flatMap Field.bytes)
    (hne : p ≠ fields.flatMap Field.bytes) :
    ∃ j f q, fields[j]? = some f ∧ p = (fields.take j).flatMap Field.bytes ++ q ∧
      q <+: f.bytes ∧ q ≠ f.bytes := by
  induction fields generalizing p with
  | nil => exact absurd (List.prefix_nil.1 hp) hne
  | cons f fields ih =>
    rw [List.flatMap_cons] at hp hne
    by_cases hf : f.bytes <+: p
    · obtain ⟨q, rfl⟩ := hf
      rw [List.prefix_append_right_inj] at hp
      rw [Ne, List.append_cancel_left_eq] at hne
      obtain ⟨j, g, q, hg, rfl, hq⟩ := ih hp hne
      refine ⟨j + 1, g, q, hg, ?_, hq⟩
      rw [List.take_succ_cons, List.flatMap_cons, List.append_assoc]
    · refine ⟨0, f, p, rfl, rfl, ?_, ?_⟩
      · exact (List.prefix_or_prefix_of_prefix hp (List.prefix_append ..)).resolve_right hf
      · rintro rfl
        exact hf (List.prefix_refl _)

/-- A message that is cut short is cut either between two occurrences or within one, and then its
walk does not end properly. -/
theorem ofMessage_cut_off (h : ∀ f ∈ fields, f.Framed) (hp : p <+: fields.flatMap Field.bytes)
    (hne : p ≠ fields.flatMap Field.bytes) :
    ∃ j < fields.length, ∃ ending, ofMessage p = ⟨fields.take j, ending⟩ ∧
      (ending = .complete ↔ p = (fields.take j).flatMap Field.bytes) := by
  obtain ⟨j, f, q, hf, rfl, hq, hqne⟩ := exists_take_of_shorter hp hne
  obtain ⟨hj, rfl⟩ := List.getElem?_eq_some_iff.1 hf
  have htake : ∀ g ∈ fields.take j, g.Framed := fun g hg => h g (List.mem_of_mem_take hg)
  refine ⟨j, hj, ?_⟩
  by_cases hnil : q = []
  · subst hnil
    rw [List.append_nil]
    exact ⟨.complete, ofMessage_framed htake, by simp⟩
  · obtain ⟨ending, hwalk, hending⟩ :=
      walkFrom_cut_off (h _ (List.getElem_mem hj)) hq hqne hnil (#[] ++ (fields.take j).toArray)
    refine ⟨ending, ?_, ?_⟩
    · rw [ofMessage, walkFrom_framed htake, hwalk]
      simp
    · simp [hending, hnil]

/-! ## Tags that close a group -/

/-- Without a tag that closes a group, a walk goes on to its end. -/
theorem untilEndGroup_eq_self {fields : List Field} (h : ∀ f ∈ fields, f.tag.wire ≠ .endGroup)
    (ending : Ending) : untilEndGroup ⟨fields, ending⟩ = ⟨fields, ending⟩ := by
  have hspan : fields.span (·.tag.wire != .endGroup) = (fields, []) := by
    rw [List.span_eq_takeWhile_dropWhile, List.takeWhile_eq_self_iff.2 (by simpa using h),
      List.dropWhile_eq_nil_iff.2 (by simpa using h)]
  rw [untilEndGroup, hspan]

/-- Occurrences of which none closes a group are found again. -/
theorem untilEndGroup_ofMessage_framed {fields : List Field}
    (h : ∀ f ∈ fields, f.Framed ∧ f.tag.wire ≠ .endGroup) :
    (ofMessage (fields.flatMap Field.bytes)).untilEndGroup = ⟨fields, .complete⟩ := by
  rw [ofMessage_framed fun f hf => (h f hf).1]
  exact untilEndGroup_eq_self (fun f hf => (h f hf).2) _

/-- Where no tag closes a group, the search for such a tag goes on behind. -/
theorem untilEndGroup_append {fields : List Field} (h : ∀ f ∈ fields, f.tag.wire ≠ .endGroup)
    (w : Walk) :
    untilEndGroup ⟨fields ++ w.fields, w.ending⟩ =
      ⟨fields ++ w.untilEndGroup.fields, w.untilEndGroup.ending⟩ := by
  have hplain : ∀ f ∈ fields, (f.tag.wire != .endGroup) = true := by simpa using h
  simp only [untilEndGroup, List.span_eq_takeWhile_dropWhile,
    List.takeWhile_append_of_pos hplain, List.dropWhile_append_of_pos hplain]
  cases w.fields.dropWhile (·.tag.wire != .endGroup) with
  | nil => rfl
  | cons closing after =>
    dsimp only
    split <;> rfl

theorem untilEndGroup_plain (h : f.tag.wire ≠ .endGroup) (fields : List Field) (ending : Ending) :
    untilEndGroup ⟨f :: fields, ending⟩ =
      ⟨f :: (untilEndGroup ⟨fields, ending⟩).fields, (untilEndGroup ⟨fields, ending⟩).ending⟩ :=
  untilEndGroup_append (List.forall_mem_singleton.2 h) ⟨fields, ending⟩

/-- At a tag that closes a group the walk is over. -/
theorem untilEndGroup_closing (h : f.tag.wire = .endGroup) (after : List Field) (ending : Ending) :
    untilEndGroup ⟨f :: after, ending⟩ =
      if after = [] ∧ ending = .complete then ⟨[], .complete⟩
      else ⟨[], .malformed .bytesAfterEndGroup⟩ := by
  have hspan : (f :: after).span (·.tag.wire != .endGroup) = ([], f :: after) := by
    simp [List.span_eq_takeWhile_dropWhile, h]
  rw [untilEndGroup, hspan]

/-- Behind a tag that closes a group there may be no bytes. -/
theorem untilEndGroup_closing_ofMessage (h : f.tag.wire = .endGroup) (s : Bytes) :
    untilEndGroup ⟨f :: (ofMessage s).fields, (ofMessage s).ending⟩ =
      ⟨[], if s = [] then .complete else .malformed .bytesAfterEndGroup⟩ := by
  have hs : (ofMessage s).fields = [] ∧ (ofMessage s).ending = .complete ↔ s = [] := by
    constructor
    · rintro ⟨hfields, hending⟩
      obtain ⟨rest, -, hcut, hrest⟩ := ofMessage_cuts s
      rwa [hfields, hrest.1 hending] at hcut
    · rintro rfl
      rw [ofMessage, walkFrom_nil]
      exact ⟨rfl, rfl⟩
  rw [untilEndGroup_closing h]
  simp only [hs]
  split <;> rfl

/-- The search for a tag that closes a group goes alike through occurrences that are related one by
one. -/
theorem untilEndGroup_forall₂ {R : Field → Field → Prop}
    (hclose : ∀ f g, R f g → (f.tag.wire = .endGroup ↔ g.tag.wire = .endGroup))
    {fields fields' : List Field} (h : List.Forall₂ R fields fields') (ending : Ending) :
    (untilEndGroup ⟨fields, ending⟩).ending = (untilEndGroup ⟨fields', ending⟩).ending ∧
      List.Forall₂ R (untilEndGroup ⟨fields, ending⟩).fields
        (untilEndGroup ⟨fields', ending⟩).fields := by
  induction h with
  | nil => exact ⟨rfl, .nil⟩
  | @cons f g fields fields' hfg hrest ih =>
    by_cases hf : f.tag.wire = .endGroup
    · have hnil : fields = [] ↔ fields' = [] := by
        rw [← List.length_eq_zero_iff, hrest.length_eq, List.length_eq_zero_iff]
      have hsame : untilEndGroup ⟨f :: fields, ending⟩ = untilEndGroup ⟨g :: fields', ending⟩ := by
        rw [untilEndGroup_closing hf, untilEndGroup_closing ((hclose f g hfg).1 hf)]
        simp only [hnil]
      have hnone : (untilEndGroup ⟨g :: fields', ending⟩).fields = [] := by
        rw [untilEndGroup_closing ((hclose f g hfg).1 hf)]
        split <;> rfl
      rw [hsame, hnone]
      exact ⟨rfl, .nil⟩
    · rw [untilEndGroup_plain hf, untilEndGroup_plain (mt (hclose f g hfg).2 hf)]
      exact ⟨ih.1, .cons hfg ih.2⟩

theorem untilEndGroup_prefix (w : Walk) : w.untilEndGroup.fields <+: w.fields := by
  obtain ⟨fields, ending⟩ := w
  induction fields with
  | nil => exact List.prefix_refl _
  | cons f fields ih =>
    by_cases hf : f.tag.wire = .endGroup
    · rw [untilEndGroup_closing hf]
      split <;> exact List.nil_prefix
    · rw [untilEndGroup_plain hf]
      exact List.prefix_cons_inj f |>.2 ih

/-- A walk that is accepted ends properly, and has no tag that closes a group but perhaps one as its
last occurrence, which is all that is left out. -/
theorem fields_of_untilEndGroup_complete {w : Walk} (h : w.untilEndGroup.ending = .complete) :
    w.ending = .complete ∧ (∀ f ∈ w.untilEndGroup.fields, f.tag.wire ≠ .endGroup) ∧
      ∃ closing, w.fields = w.untilEndGroup.fields ++ closing ∧ closing.length ≤ 1 ∧
        ∀ f ∈ closing, f.tag.wire = .endGroup := by
  obtain ⟨fields, ending⟩ := w
  induction fields with
  | nil => exact ⟨h, by simp [untilEndGroup], [], rfl, Nat.zero_le 1, by simp⟩
  | cons f fields ih =>
    by_cases hf : f.tag.wire = .endGroup
    · rw [untilEndGroup_closing hf] at h ⊢
      split at h
      next hend =>
        obtain ⟨rfl, rfl⟩ := hend
        rw [if_pos ⟨rfl, rfl⟩]
        exact ⟨rfl, by simp, [f], rfl, Nat.le_refl 1, List.forall_mem_singleton.2 hf⟩
      next => cases h
    · rw [untilEndGroup_plain hf] at h ⊢
      obtain ⟨hending, hplain, closing, hfields, hclosing⟩ := ih h
      exact ⟨hending, List.forall_mem_cons.2 ⟨hf, hplain⟩, closing, congrArg (f :: ·) hfields,
        hclosing⟩

theorem mem_untilEndGroup {w : Walk} (h : w.untilEndGroup.ending = .complete) (hf : f ∈ w.fields)
    (hwire : f.tag.wire ≠ .endGroup) : f ∈ w.untilEndGroup.fields := by
  obtain ⟨-, -, closing, hfields, -, hclosing⟩ := fields_of_untilEndGroup_complete h
  rw [hfields, List.mem_append] at hf
  exact hf.resolve_right fun hf => hwire (hclosing f hf)

/-- A walk that ends properly is accepted if nothing follows a tag that closes a group. -/
theorem untilEndGroup_ending {w : Walk} (h : w.ending = .complete) :
    w.untilEndGroup.ending =
      if ∀ f ∈ w.fields.dropLast, f.tag.wire ≠ .endGroup then .complete
      else .malformed .bytesAfterEndGroup := by
  obtain ⟨fields, ending⟩ := w
  obtain rfl : ending = .complete := h
  induction fields with
  | nil => simp [untilEndGroup]
  | cons f fields ih =>
    by_cases hf : f.tag.wire = .endGroup
    · rw [untilEndGroup_closing hf]
      cases fields with
      | nil => simp
      | cons g fields => simp [hf]
    · rw [untilEndGroup_plain hf, ih]
      cases fields with
      | nil => simp
      | cons g fields => simp [hf]

/-- A walk that is accepted has no tag that closes a group, save perhaps as its last occurrence. -/
theorem of_untilEndGroup_complete {w : Walk} (h : w.untilEndGroup.ending = .complete) :
    w.ending = .complete ∧ (∀ f ∈ w.untilEndGroup.fields, f.tag.wire ≠ .endGroup) ∧
      ∀ j < w.fields.length, w.fields.take j = w.untilEndGroup.fields.take j := by
  obtain ⟨hending, hplain, closing, hfields, hlength, -⟩ := fields_of_untilEndGroup_complete h
  refine ⟨hending, hplain, fun j hj => ?_⟩
  rw [hfields, List.length_append] at hj
  rw [hfields, List.take_append_of_le_length (by omega)]

/-- A message that is accepted is made up of its occurrences. -/
theorem tiles_of_complete {m : Bytes} (h : (ofMessage m).untilEndGroup.ending = .complete) :
    (∀ f ∈ (ofMessage m).fields, f.Framed) ∧ m = (ofMessage m).fields.flatMap Field.bytes := by
  obtain ⟨rest, hframed, hcuts, hending⟩ := ofMessage_cuts m
  obtain rfl : rest = [] := hending.1 (of_untilEndGroup_complete h).1
  exact ⟨hframed, hcuts.trans (List.append_nil _)⟩

end Walk

end WireColumns
