import Mathlib
import WireColumns.Column.Decoder
import WireColumns.Proofs.Lists

/-! # Requests of a decoder

What the checks of `Decoder.ofFields` establish: the field numbers ascend strictly, and the output
slots are the places of the list in some order (`Decoder.Valid`). Hence what belongs to a request
comes out at the request's slot (`Decoder.getElem?_inOutputOrder`). -/

namespace WireColumns

namespace Decoder

/-- The requests for a list of fields in the order of their field numbers. -/
def sortedRequests (fields : List FieldSpec) : List Request :=
  (requestsOf fields).mergeSort fun a b => decide (a.spec.number ≤ b.spec.number)

/-- What the checks establish. -/
structure Valid (d : Decoder) : Prop where
  ascending : (d.requests.map (·.spec.number)).Pairwise (· < ·)
  slots_nodup : (d.requests.map Request.slot).Nodup
  slot_lt : ∀ r ∈ d.requests, r.slot < d.requests.length

/-! ## The checks -/

theorem pairwise_sortedRequests (fields : List FieldSpec) :
    ((sortedRequests fields).map (·.spec.number)).Pairwise (· ≤ ·) := by
  rw [List.pairwise_map]
  refine (List.pairwise_mergeSort ?_ ?_ (requestsOf fields)).imp fun h => by simpa using h
  · intro a b c hab hbc
    simp only [decide_eq_true_eq] at hab hbc ⊢
    exact UInt32.le_trans hab hbc
  · intro a b
    simp only [Bool.or_eq_true, decide_eq_true_eq]
    exact UInt32.le_total ..

theorem duplicate?_eq_none_iff {numbers : List UInt32} (h : numbers.Pairwise (· ≤ ·)) :
    duplicate? numbers = none ↔ numbers.Pairwise (· < ·) := by
  induction numbers using duplicate?.induct with
  | case1 m rest =>
    simp only [duplicate?, if_pos, reduceCtorEq, false_iff]
    exact fun hlt => UInt32.lt_irrefl m (List.pairwise_cons.1 hlt |>.1 m List.mem_cons_self)
  | case2 m n rest hmn ih =>
    rw [duplicate?, if_neg hmn, ih h.of_cons]
    refine ⟨fun hlt => List.pairwise_cons.2 ⟨fun k hk => ?_, hlt⟩, fun hlt => hlt.of_cons⟩
    have hlt' : m < n :=
      UInt32.lt_of_le_of_ne (List.pairwise_cons.1 h |>.1 n List.mem_cons_self) hmn
    rcases List.mem_cons.1 hk with rfl | hk
    · exact hlt'
    · exact UInt32.lt_trans hlt' (List.pairwise_cons.1 hlt |>.1 k hk)
  | case3 numbers hn =>
    cases numbers with
    | nil => simp [duplicate?]
    | cons m rest =>
      cases rest with
      | nil => simp [duplicate?]
      | cons n rest => exact (hn m n rest rfl).elim

theorem checkSlots_eq_ok_iff {count : Nat} {taken : List Nat} {requests : List Request} :
    checkSlots count taken requests = .ok () ↔
      (∀ r ∈ requests, r.slot < count ∧ r.slot ∉ taken) ∧
        (requests.map Request.slot).Nodup := by
  induction requests generalizing taken with
  | nil => simp [checkSlots]
  | cons r rest ih =>
    rw [checkSlots]
    split
    · grind
    · split
      · grind
      · rw [ih]
        simp only [List.map_cons, List.nodup_cons, List.mem_map, List.mem_cons]
        grind

theorem forM_validate_eq_ok_iff {fields : List FieldSpec} :
    fields.forM FieldSpec.validate = .ok () ↔ ∀ spec ∈ fields, spec.validate = .ok () := by
  induction fields with
  | nil => simp [List.forM, pure, Except.pure]
  | cons spec fields ih =>
    rw [List.forall_mem_cons, ← ih]
    change (spec.validate >>= fun _ => fields.forM FieldSpec.validate) = _ ↔ _
    cases spec.validate <;> simp [bind, Except.bind]

theorem length_sortedRequests (fields : List FieldSpec) :
    (sortedRequests fields).length = fields.length := by
  simp [sortedRequests, requestsOf]

theorem ofFields_eq_ok_iff {fields : List FieldSpec} {options : DecodeOptions} {d : Decoder} :
    ofFields fields options = .ok d ↔
      (∀ spec ∈ fields, spec.validate = .ok ()) ∧
        duplicate? ((sortedRequests fields).map (·.spec.number)) = none ∧
        checkSlots fields.length [] (sortedRequests fields) = .ok () ∧
        d = ⟨sortedRequests fields, options⟩ := by
  rw [← forM_validate_eq_ok_iff, ← length_sortedRequests]
  unfold ofFields sortedRequests
  generalize (requestsOf fields).mergeSort _ = requests
  cases fields.forM FieldSpec.validate with
  | error e => simp [bind, Except.bind]
  | ok _ =>
    simp only [bind, Except.bind, true_and]
    cases duplicate? (requests.map (·.spec.number)) with
    | some number => simp [throw, throwThe, MonadExceptOf.throw]
    | none =>
      cases checkSlots requests.length [] requests with
      | error e => simp
      | ok _ =>
        simp only [pure, Except.pure, Except.ok.injEq, true_and]
        exact eq_comm

theorem valid_of_ofFields {fields : List FieldSpec} {options : DecodeOptions} {d : Decoder}
    (h : ofFields fields options = .ok d) : d.Valid := by
  obtain ⟨_, hdup, hslots, rfl⟩ := ofFields_eq_ok_iff.1 h
  obtain ⟨hlt, hnodup⟩ := checkSlots_eq_ok_iff.1 hslots
  refine ⟨(duplicate?_eq_none_iff (pairwise_sortedRequests fields)).1 hdup, hnodup,
    fun r hr => ?_⟩
  rw [length_sortedRequests]
  exact (hlt r hr).1

/-- Every field of the list has become a request. -/
theorem mem_requests_of_ofFields {fields : List FieldSpec} {options : DecodeOptions}
    {d : Decoder} (h : ofFields fields options = .ok d) {i : Nat} {spec : FieldSpec}
    (hi : fields[i]? = some spec) : ⟨spec, spec.output?.getD i⟩ ∈ d.requests := by
  obtain ⟨_, _, _, rfl⟩ := ofFields_eq_ok_iff.1 h
  rw [sortedRequests, List.mem_mergeSort, requestsOf, List.mem_mapIdx]
  obtain ⟨hlt, rfl⟩ := List.getElem?_eq_some_iff.1 hi
  exact ⟨i, hlt, rfl⟩

/-- Every request is that of a field of the list. -/
theorem exists_field_of_request {fields : List FieldSpec} {options : DecodeOptions} {d : Decoder}
    (h : ofFields fields options = .ok d) {r : Request} (hr : r ∈ d.requests) :
    ∃ i, fields[i]? = some r.spec ∧ r.spec.output?.getD i = r.slot := by
  obtain ⟨_, _, _, rfl⟩ := ofFields_eq_ok_iff.1 h
  rw [sortedRequests, List.mem_mergeSort, requestsOf, List.mem_mapIdx] at hr
  obtain ⟨i, hi, rfl⟩ := hr
  exact ⟨i, List.getElem?_eq_getElem hi, rfl⟩

theorem spec_mem_of_ofFields {fields : List FieldSpec} {options : DecodeOptions}
    {d : Decoder} (h : ofFields fields options = .ok d) {r : Request} (hr : r ∈ d.requests) :
    r.spec ∈ fields := by
  obtain ⟨i, hi, -⟩ := exists_field_of_request h hr
  exact List.mem_of_getElem? hi

/-- No two requested fields have the same number. -/
theorem spec_eq_of_number {fields : List FieldSpec} {options : DecodeOptions} {d : Decoder}
    (h : ofFields fields options = .ok d) {spec spec' : FieldSpec} (hspec : spec ∈ fields)
    (hspec' : spec' ∈ fields) (hn : spec.number = spec'.number) : spec = spec' := by
  obtain ⟨i, hi⟩ := List.mem_iff_getElem?.1 hspec
  obtain ⟨i', hi'⟩ := List.mem_iff_getElem?.1 hspec'
  have hnodup : (d.requests.map (·.spec.number)).Nodup :=
    (valid_of_ofFields h).ascending.imp fun h => UInt32.ne_of_lt h
  have hsame := List.inj_on_of_nodup_map hnodup (mem_requests_of_ofFields h hi)
    (mem_requests_of_ofFields h hi') hn
  exact congrArg Request.spec hsame

theorem length_requests_of_ofFields {fields : List FieldSpec} {options : DecodeOptions}
    {d : Decoder} (h : ofFields fields options = .ok d) : d.requests.length = fields.length := by
  obtain ⟨_, _, _, rfl⟩ := ofFields_eq_ok_iff.1 h
  exact length_sortedRequests fields

theorem options_of_ofFields {fields : List FieldSpec} {options : DecodeOptions} {d : Decoder}
    (h : ofFields fields options = .ok d) : d.options = options := by
  obtain ⟨_, _, _, rfl⟩ := ofFields_eq_ok_iff.1 h
  rfl

/-! ## Output order -/

/-- Naturals below the number of them, in ascending order and without repetition, are all naturals
below that number. -/
theorem eq_range_of_pairwise {slots : List Nat} (hs : slots.Pairwise (· ≤ ·))
    (hnodup : slots.Nodup) (hlt : ∀ s ∈ slots, s < slots.length) :
    slots = List.range slots.length := by
  have hperm : slots.Perm (List.range slots.length) := (perm_range_iff rfl).2 ⟨hlt, hnodup⟩
  exact hperm.eq_of_pairwise (fun a b _ _ => Nat.le_antisymm) hs
    (List.pairwise_le_range)

variable {α : Type} {d : Decoder}

/-- Items put in output order, each with its slot. -/
def slotted (d : Decoder) (items : List α) : List (Nat × α) :=
  ((d.requests.map Request.slot).zip items).mergeSort fun a b => decide (a.1 ≤ b.1)

theorem perm_slots_slotted {items : List α} (hlen : items.length = d.requests.length) :
    ((d.slotted items).map Prod.fst).Perm (d.requests.map Request.slot) := by
  refine ((List.mergeSort_perm ..).map Prod.fst).trans ?_
  rw [List.map_fst_zip (by simp [hlen])]

theorem slots_slotted (hd : d.Valid) {items : List α}
    (hlen : items.length = d.requests.length) :
    (d.slotted items).map Prod.fst = List.range d.requests.length := by
  have hperm := perm_slots_slotted hlen
  have hsorted : ((d.slotted items).map Prod.fst).Pairwise (· ≤ ·) := by
    rw [List.pairwise_map]
    refine (List.pairwise_mergeSort ?_ ?_ _).imp fun h => by simpa using h
    · intro a b c hab hbc
      simp only [decide_eq_true_eq] at hab hbc ⊢
      exact Nat.le_trans hab hbc
    · intro a b
      simp only [Bool.or_eq_true, decide_eq_true_eq]
      exact Nat.le_total ..
  have hlength : ((d.slotted items).map Prod.fst).length = d.requests.length := by
    rw [hperm.length_eq, List.length_map]
  rw [← hlength]
  refine eq_range_of_pairwise hsorted (hperm.nodup_iff.2 hd.slots_nodup) fun s hs => ?_
  obtain ⟨r, hr, rfl⟩ := List.mem_map.1 (hperm.mem_iff.1 hs)
  exact hlength ▸ hd.slot_lt r hr

theorem length_inOutputOrder {items : List α} (hlen : items.length = d.requests.length) :
    (d.inOutputOrder items).length = d.requests.length := by
  rw [inOutputOrder, List.length_map, List.length_mergeSort, List.length_zip, List.length_map, hlen,
    Nat.min_self]

/-- What belongs to a request comes out at the request's slot. -/
theorem getElem?_inOutputOrder (hd : d.Valid) {items : List α}
    (hlen : items.length = d.requests.length) {i : Nat} {r : Request}
    (hr : d.requests[i]? = some r) : (d.inOutputOrder items)[r.slot]? = items[i]? := by
  obtain ⟨hi, rfl⟩ := List.getElem?_eq_some_iff.1 hr
  have hpair : (d.requests[i].slot, items[i]) ∈ d.slotted items := by
    rw [slotted, List.mem_mergeSort]
    exact List.mem_iff_getElem.2 ⟨i, by simp [hlen, hi], by simp⟩
  obtain ⟨k, hk, hget⟩ := List.mem_iff_getElem.1 hpair
  -- the slots in output order are 0, 1, 2, …, so the pair stands at its own slot
  have hslot : ((d.slotted items).map Prod.fst)[k]? = some d.requests[i].slot := by
    rw [List.getElem?_map, List.getElem?_eq_getElem hk, hget]
    rfl
  rw [slots_slotted hd hlen] at hslot
  obtain ⟨_, hk'⟩ := List.getElem?_eq_some_iff.1 hslot
  rw [List.getElem_range] at hk'
  change ((d.slotted items).map Prod.snd)[d.requests[i].slot]? = _
  rw [← hk', List.getElem?_map, List.getElem?_eq_getElem hk, hget,
    List.getElem?_eq_getElem (hlen ▸ hi)]
  rfl

/-- Every output slot is that of a request. -/
theorem exists_request_of_slot (hd : d.Valid) {slot : Nat} (h : slot < d.requests.length) :
    ∃ (i : Nat) (r : Request), d.requests[i]? = some r ∧ r.slot = slot := by
  have hlen : d.requests.length = d.requests.length := rfl
  rw [← List.mem_range, ← slots_slotted hd hlen, (perm_slots_slotted hlen).mem_iff] at h
  obtain ⟨r, hr, hslot⟩ := List.mem_map.1 h
  obtain ⟨i, hi⟩ := List.mem_iff_getElem?.1 hr
  exact ⟨i, r, hi, hslot⟩

/-- Lists with as many items as there are requests are the same if they agree at every slot of a
request. -/
theorem Valid.eq_of_slots (hd : d.Valid) {l l' : List α} (hlen : l.length = d.requests.length)
    (hlen' : l'.length = d.requests.length)
    (h : ∀ (i : Nat) (r : Request), d.requests[i]? = some r → l[r.slot]? = l'[r.slot]?) :
    l = l' := by
  refine List.ext_getElem? fun slot => ?_
  by_cases hslot : slot < d.requests.length
  · obtain ⟨i, r, hr, rfl⟩ := exists_request_of_slot hd hslot
    exact h i r hr
  · have hle := Nat.not_lt.1 hslot
    rw [List.getElem?_eq_none (hlen ▸ hle), List.getElem?_eq_none (hlen' ▸ hle)]

/-- What stands at a place of the output order is the request of that slot. -/
theorem mem_of_getElem?_inOutputOrder (hd : d.Valid) {slot : Nat} {r : Request}
    (h : (d.inOutputOrder d.requests)[slot]? = some r) : r ∈ d.requests ∧ r.slot = slot := by
  have hlt : slot < d.requests.length := by
    rw [← length_inOutputOrder rfl]
    exact (List.getElem?_eq_some_iff.1 h).1
  obtain ⟨i, r', hr', rfl⟩ := exists_request_of_slot hd hlt
  rw [getElem?_inOutputOrder hd rfl hr', hr'] at h
  obtain rfl := Option.some.inj h
  exact ⟨List.mem_of_getElem? hr', rfl⟩

/-- What is made of the items is so in output order, too. -/
theorem inOutputOrder_map {β : Type} (d : Decoder) (f : α → β) (items : List α) :
    d.inOutputOrder (items.map f) = (d.inOutputOrder items).map f := by
  have hzip : (d.requests.map Request.slot).zip (items.map f) =
      ((d.requests.map Request.slot).zip items).map (Prod.map id f) := by
    rw [List.zip_map_right]
  have hsort : (d.slotted (items.map f)) = (d.slotted items).map (Prod.map id f) := by
    rw [slotted, slotted, hzip]
    exact (List.map_mergeSort (f := Prod.map id f) fun _ _ _ _ => rfl).symm
  change (d.slotted (items.map f)).map Prod.snd = ((d.slotted items).map Prod.snd).map f
  rw [hsort, List.map_map, List.map_map]
  rfl

/-- What is put together from two lists of items is so in output order, too. -/
theorem inOutputOrder_zipWith {β γ : Type} (hd : d.Valid) (f : α → β → γ) {as : List α}
    {bs : List β} (has : as.length = d.requests.length) (hbs : bs.length = d.requests.length) :
    d.inOutputOrder (List.zipWith f as bs) =
      List.zipWith f (d.inOutputOrder as) (d.inOutputOrder bs) := by
  have hzip : (List.zipWith f as bs).length = d.requests.length := by
    rw [List.length_zipWith, has, hbs, Nat.min_self]
  refine hd.eq_of_slots (length_inOutputOrder hzip) ?_ fun i r hr => ?_
  · rw [List.length_zipWith, length_inOutputOrder has, length_inOutputOrder hbs, Nat.min_self]
  · rw [List.getElem?_zipWith, getElem?_inOutputOrder hd hzip hr, getElem?_inOutputOrder hd has hr,
      getElem?_inOutputOrder hd hbs hr, List.getElem?_zipWith]

/-- What is made of every request stands at the place of the request's field. -/
theorem getElem?_inOutputOrder_map {fields : List FieldSpec} {options : DecodeOptions}
    (h : ofFields fields options = .ok d) {i : Nat} {spec : FieldSpec}
    (hi : fields[i]? = some spec) (f : Request → α) :
    (d.inOutputOrder (d.requests.map f))[spec.output?.getD i]? =
      some (f ⟨spec, spec.output?.getD i⟩) := by
  obtain ⟨k, hk⟩ := List.mem_iff_getElem?.1 (mem_requests_of_ofFields h hi)
  have hget := getElem?_inOutputOrder (valid_of_ofFields h) (List.length_map f) hk
  rwa [List.getElem?_map, hk] at hget

end Decoder

end WireColumns
