import WireColumns.Column.Dispatcher
import WireColumns.Proofs.Column.Collector
import WireColumns.Proofs.Wire.Visit

/-! # Dispatch without a moving place

`Collector.lookupMessage` dispatches a message in the plain way: for every occurrence it searches
the collectors from the start for the one with the right number. The place that
`Collector.dispatchMessage` moves forward finds the same collectors
(`dispatchMessage_eq_lookupMessage`), because all collectors in front of that place have numbers
below the last one seen (`Dispatch.Ready`). -/

namespace WireColumns

/-- What an occurrence brings: a payload, and the number of the field it is for. -/
structure Delivery where
  number : UInt32
  wire : WireType
  payload : Bytes

/-- What an occurrence brings. An item of a message set brings its message to the field that its
type id names. -/
def Field.delivery (messageSetItems : Bool) (f : Field) : Except Corruption Delivery :=
  if messageSetItems && f.tag == Tag.messageSetItem then do
    let contents ← Read.group.eval f.payload
    let item ← MessageSetItem.parse contents
    return ⟨item.typeId, .lengthDelimited, item.encoded⟩
  else return ⟨f.tag.number, f.tag.wire, f.payload⟩

theorem Field.delivery_of_ne {f : Field} (h : f.tag ≠ Tag.messageSetItem) (messageSetItems : Bool) :
    f.delivery messageSetItems = .ok ⟨f.tag.number, f.tag.wire, f.payload⟩ := by
  rw [delivery, beq_false_of_ne h, Bool.and_false]
  rfl

namespace Collector

/-- Gives a payload to the first collector of its field, if there is one. -/
def consumeFirst (t : Delivery) (index : Int) : EStateM Corruption (Array Collector) Unit :=
  fun cs =>
    match cs.findFinIdx? (·.number == t.number) with
    | none => .ok () cs
    | some place =>
      match consume t.wire t.payload index cs[place] with
      | .ok _ c => .ok () (cs.set place c)
      | .error e c => .error e (cs.set place c)

/-- Gives an occurrence to the first collector of its field. -/
def lookup (messageSetItems : Bool) (index : Int) (f : Field) :
    EStateM Corruption (Array Collector) Unit := fun cs =>
  match f.delivery messageSetItems with
  | .ok t => consumeFirst t index cs
  | .error e => .error e cs

/-- Gives every occurrence in a message to the first collector of its field. -/
def lookupMessage (messageSetItems : Bool) (message : Bytes) (index : Int) :
    EStateM Corruption (Array Collector) Unit :=
  (Walk.ofMessage message).untilEndGroup.visit (lookup messageSetItems index)

/-- The numbers of collectors, in order. -/
def numbers (cs : Array Collector) : List UInt32 := cs.toList.map number

theorem pairwise_of_areSorted {cs : List Collector} (h : areSorted cs = true) :
    (cs.map number).Pairwise (· < ·) := by
  induction cs using areSorted.induct with
  | case1 c d rest ih =>
    simp only [areSorted, Bool.and_eq_true, decide_eq_true_eq] at h
    have hd := ih h.2
    rw [List.map_cons, List.pairwise_cons]
    refine ⟨fun n hn => ?_, hd⟩
    rw [List.map_cons, List.pairwise_cons] at hd
    rcases List.mem_cons.1 hn with rfl | hn
    · exact h.1
    · exact UInt32.lt_trans h.1 (hd.1 n hn)
  | case2 cs hcs =>
    cases cs with
    | nil => exact .nil
    | cons c cs =>
      cases cs with
      | nil => simp
      | cons d rest => exact (hcs c d rest rfl).elim

theorem areSorted_of_pairwise {cs : List Collector}
    (h : (cs.map number).Pairwise (· < ·)) : areSorted cs = true := by
  induction cs using areSorted.induct with
  | case1 c d rest ih =>
    rw [List.map_cons, List.pairwise_cons] at h
    rw [areSorted, ih h.2, Bool.and_true]
    exact decide_eq_true (h.1 d.number (by simp))
  | case2 cs hcs =>
    cases cs with
    | nil => rfl
    | cons c cs =>
      cases cs with
      | nil => rfl
      | cons d rest => exact (hcs c d rest rfl).elim

theorem numbers_set {cs : Array Collector} {i : Nat} (hi : i < cs.size) {c : Collector}
    (h : c.number = cs[i].number) : numbers (cs.set i c) = numbers cs := by
  have hlen : i < (numbers cs).length := by simpa [numbers] using hi
  have hget : (numbers cs)[i] = c.number := by simp [numbers, h]
  calc numbers (cs.set i c) = (numbers cs).set i c.number := by simp [numbers]
    _ = numbers cs := by rw [← hget, List.set_getElem_self]

end Collector

namespace Dispatch

open Collector

/-! ## One occurrence -/

theorem routeField_eq (f : Field) (index : Int) (d : Dispatch) :
    routeField f index d =
      let place := seek f.tag.number d.collectors
        (if f.tag.number < d.lastNumber then 0 else d.next)
      let d' : Dispatch := ⟨d.collectors, f.tag.number, place⟩
      if d.collectors[place]?.map Collector.number == some f.tag.number then
        deliver place f.tag.wire f.payload index d'
      else .ok () d' := by
  simp only [routeField, bind, EStateM.bind, modify, modifyGet, MonadStateOf.modifyGet,
    EStateM.modifyGet]
  split
  · split <;> rfl
  · split <;> rfl

theorem routeItem_eq (payload : Bytes) (index : Int) (d : Dispatch) :
    routeItem payload index d =
      match Read.group.eval payload with
      | .error e => .error e d
      | .ok contents =>
        match MessageSetItem.parse contents with
        | .error e => .error e d
        | .ok item =>
          match d.collectors.findIdx? (·.number == item.typeId) with
          | none => .ok () d
          | some place => deliver place .lengthDelimited item.encoded index d := by
  simp only [routeItem, bind, EStateM.bind, MonadExcept.ofExcept]
  cases Read.group.eval payload with
  | error e => rfl
  | ok contents =>
    simp only [pure, EStateM.pure]
    cases MessageSetItem.parse contents with
    | error e => rfl
    | ok item =>
      simp only [modifyGet, MonadStateOf.modifyGet, EStateM.modifyGet, EStateM.pure]
      cases d.collectors.findIdx? (·.number == item.typeId) <;> rfl

theorem deliver_eq (d : Dispatch) (place : Fin d.collectors.size) (wire : WireType)
    (payload : Bytes) (index : Int) :
    deliver place wire payload index d =
      match consume wire payload index d.collectors[place] with
      | .ok _ c => .ok () { d with collectors := d.collectors.set place c }
      | .error e c => .error e { d with collectors := d.collectors.set place c } := by
  have hmodify : ∀ f, d.collectors.modify place f =
      d.collectors.set place (f d.collectors[place]) := by
    intro f
    refine Array.ext (by simp) fun i h₁ h₂ => ?_
    rw [Array.getElem_modify, Array.getElem_set]
    grind
  simp only [deliver, Array.getElem?_eq_getElem place.isLt, hmodify]
  unfold consume
  split <;> simp_all

/-! ## The place reached -/

/-- All collectors in front of the place have numbers below the last one seen. -/
structure Ready (numbers : List UInt32) (d : Dispatch) : Prop where
  numbers_eq : Collector.numbers d.collectors = numbers
  passed : ∀ n ∈ numbers.take d.next, n < d.lastNumber

/-- The search stops at a place where all collectors passed have lower numbers. -/
theorem seek_passed {number : UInt32} {cs : Array Collector} {place : Nat}
    (h : ∀ n ∈ (Collector.numbers cs).take place, n < number) :
    ∀ n ∈ (Collector.numbers cs).take (seek number cs place), n < number := by
  fun_induction seek number cs place with
  | case1 place hp hlt ih =>
    refine ih fun n hn => ?_
    rw [List.take_add_one, List.mem_append] at hn
    rcases hn with hn | hn
    · exact h n hn
    · simp only [Collector.numbers, List.getElem?_map, Array.getElem?_toList,
        Array.getElem?_eq_getElem hp, Option.map_some, Option.toList_some,
        List.mem_singleton] at hn
      exact hn ▸ hlt
  | case2 | case3 => exact h

/-- The search stops at a collector whose number is not too low. -/
theorem le_of_seek {number : UInt32} {cs : Array Collector} {place : Nat}
    (h : seek number cs place < cs.size) : number ≤ cs[seek number cs place].number := by
  fun_induction seek number cs place with
  | case1 place hp hlt ih => exact ih h
  | case2 place hp hlt => exact UInt32.not_lt.1 hlt
  | case3 place hp => exact (hp h).elim

/-- Where all collectors in front of a place have lower numbers and the one at the place does not,
a search from the start ends at that place or not at all. -/
theorem findFinIdx?_of_passed {number : UInt32} {cs : Array Collector} {place : Nat}
    (hs : (Collector.numbers cs).Pairwise (· < ·))
    (hlt : ∀ n ∈ (Collector.numbers cs).take place, n < number)
    (hle : ∀ h : place < cs.size, number ≤ cs[place].number) :
    cs.findFinIdx? (·.number == number) =
      if h : ∃ hp : place < cs.size, cs[place].number = number then some ⟨place, h.1⟩
      else none := by
  have hbefore : ∀ i (hi : i < cs.size), i < place → cs[i].number < number := by
    intro i hi hip
    refine hlt _ (List.mem_iff_getElem.2 ⟨i, ?_, ?_⟩)
    · simp only [Collector.numbers, List.length_take, List.length_map, Array.length_toList]
      omega
    · simp [Collector.numbers]
  have hafter : ∀ i (hi : i < cs.size), place < i → number < cs[i].number := by
    intro i hi hip
    have hp : place < cs.size := Nat.lt_trans hip hi
    have := List.pairwise_iff_getElem.1 hs place i (by simpa [Collector.numbers] using hp)
      (by simpa [Collector.numbers] using hi) hip
    simp only [Collector.numbers, List.getElem_map, Array.getElem_toList] at this
    exact UInt32.lt_of_le_of_lt (hle hp) this
  split
  next h =>
    obtain ⟨hp, heq⟩ := h
    rw [Array.findFinIdx?_eq_some_iff]
    refine ⟨by simpa using heq, fun j hj => ?_⟩
    have := UInt32.ne_of_lt (hbefore j.1 j.2 hj)
    simpa using this
  next h =>
    rw [Array.findFinIdx?_eq_none_iff]
    intro c hc heq
    obtain ⟨i, hi, rfl⟩ := Array.mem_iff_getElem.1 hc
    have heq : cs[i].number = number := by simpa using heq
    rcases Nat.lt_trichotomy i place with hip | rfl | hip
    · exact UInt32.ne_of_lt (hbefore i hi hip) heq
    · exact h ⟨hi, heq⟩
    · exact UInt32.ne_of_lt (hafter i hi hip) heq.symm

/-! ## Both ways agree -/

section
variable {nums : List UInt32} {d : Dispatch} (hs : nums.Pairwise (· < ·))

/-- The collectors are the same, and the place reached can be gone on from. -/
def Follows (nums : List UInt32) (d : Dispatch) (cs : Array Collector) : Prop :=
  d.collectors = cs ∧ Ready nums d

theorem consume_number (wire : WireType) (payload : Bytes) (index : Int) (c : Collector) :
    (finalState (consume wire payload index c)).number = c.number := by
  unfold consume
  dsimp only
  split <;> exact commitAll_number ..

theorem deliver_agree {t : Delivery} {place : Fin d.collectors.size} (h : Ready nums d)
    (hfind : d.collectors.findFinIdx? (·.number == t.number) = some place) (index : Int) :
    Agree (Follows nums) (deliver place t.wire t.payload index d)
      (consumeFirst t index d.collectors) := by
  have hnum := consume_number t.wire t.payload index d.collectors[place]
  rw [deliver_eq, consumeFirst, hfind]
  dsimp only
  have hset : ∀ c : Collector, c.number = d.collectors[place].number →
      Follows nums { d with collectors := d.collectors.set place c }
        (d.collectors.set place c) :=
    fun c hc => ⟨rfl, (numbers_set place.isLt hc).trans h.numbers_eq, h.passed⟩
  cases hc : consume t.wire t.payload index d.collectors[place] with
  | ok a c =>
    rw [hc] at hnum
    exact .ok (hset c hnum)
  | error e c =>
    rw [hc] at hnum
    exact .error (hset c hnum)

theorem routeItem_agree (h : Ready nums d) (f : Field) (index : Int) :
    Agree (Follows nums) (routeItem f.payload index d)
      (match (do
          let contents ← Read.group.eval f.payload
          let item ← MessageSetItem.parse contents
          return ⟨item.typeId, .lengthDelimited, item.encoded⟩ : Except Corruption Delivery) with
        | .ok t => consumeFirst t index d.collectors
        | .error e => .error e d.collectors) := by
  rw [routeItem_eq]
  cases Read.group.eval f.payload with
  | error e => exact .error ⟨rfl, h⟩
  | ok contents =>
    simp only [bind, Except.bind]
    cases MessageSetItem.parse contents with
    | error e => exact .error ⟨rfl, h⟩
    | ok item =>
      dsimp only [pure, Except.pure]
      rw [Array.findIdx?_eq_map_findFinIdx?_val]
      cases hfind : d.collectors.findFinIdx? (·.number == item.typeId) with
      | none =>
        unfold consumeFirst
        dsimp only
        rw [hfind]
        exact .ok ⟨rfl, h⟩
      | some place =>
        exact deliver_agree (t := ⟨item.typeId, .lengthDelimited, item.encoded⟩) h hfind index

include hs

theorem routeField_agree (h : Ready nums d) (f : Field) (index : Int) :
    Agree (Follows nums) (routeField f index d)
      (consumeFirst ⟨f.tag.number, f.tag.wire, f.payload⟩ index d.collectors) := by
  rw [routeField_eq]
  dsimp only
  -- where the search starts, all collectors in front have numbers below the one searched for
  have hstart : ∀ n ∈ (Collector.numbers d.collectors).take
      (if f.tag.number < d.lastNumber then 0 else d.next), n < f.tag.number := by
    split
    · simp
    · rw [h.numbers_eq]
      exact fun n hn => UInt32.lt_of_lt_of_le (h.passed n hn) (UInt32.not_lt.1 ‹_›)
  have hplace := seek_passed hstart
  generalize hp : seek f.tag.number d.collectors _ = place at hplace
  have hfind := findFinIdx?_of_passed (h.numbers_eq ▸ hs) hplace fun hlt => by
    subst hp
    exact le_of_seek hlt
  have hready : Ready nums ⟨d.collectors, f.tag.number, place⟩ :=
    ⟨h.numbers_eq, h.numbers_eq ▸ hplace⟩
  by_cases hfound : ∃ hp : place < d.collectors.size, d.collectors[place].number = f.tag.number
  · rw [dif_pos hfound] at hfind
    obtain ⟨hlt, heq⟩ := hfound
    rw [if_pos (by simp [Array.getElem?_eq_getElem hlt, heq])]
    exact deliver_agree (t := ⟨f.tag.number, f.tag.wire, f.payload⟩) hready hfind index
  · rw [dif_neg hfound] at hfind
    rw [if_neg (by simpa [Array.getElem?_eq_some_iff] using hfound)]
    unfold consumeFirst
    dsimp only
    rw [hfind]
    exact .ok ⟨rfl, hready⟩

theorem route_agree (messageSetItems : Bool) (index : Int) (f : Field) {cs : Array Collector}
    (h : Follows nums d cs) :
    Agree (Follows nums) (route messageSetItems index f d)
      (lookup messageSetItems index f cs) := by
  obtain ⟨rfl, h⟩ := h
  unfold route lookup Field.delivery
  split
  · exact routeItem_agree h f index
  · exact routeField_agree hs h f index

end

end Dispatch

namespace Collector

/-- Among collectors with ascending numbers, moving a place forward finds what a look-up finds. -/
theorem dispatchMessage_of_pairwise {cs : Array Collector} (h : (numbers cs).Pairwise (· < ·))
    (messageSetItems : Bool) (message : Bytes) (index : Int) :
    dispatchMessage messageSetItems message index cs =
      lookupMessage messageSetItems message index cs := by
  have hstart : Dispatch.Follows (numbers cs) { collectors := cs } cs :=
    ⟨rfl, rfl, by simp⟩
  have hvisit := (Walk.ofMessage message).untilEndGroup.visit_agree
    (fun f _ _ hd => Dispatch.route_agree h messageSetItems index f hd) hstart
  unfold dispatchMessage lookupMessage
  dsimp only
  generalize Walk.visit _ (Dispatch.route _ _) _ = x, Walk.visit _ (lookup _ _) _ = y at hvisit
  cases hvisit with
  | ok hd => exact congrArg (EStateM.Result.ok ()) hd.1
  | error hd => exact congrArg (EStateM.Result.error _) hd.1

/-- Dispatch that moves a place forward through the collectors gives the same result as dispatch
that searches them from the start for every occurrence. -/
theorem dispatchMessage_eq_lookupMessage {cs : Array Collector}
    (h : areSorted cs.toList = true) (messageSetItems : Bool) (message : Bytes) (index : Int) :
    dispatchMessage messageSetItems message index cs =
      lookupMessage messageSetItems message index cs :=
  dispatchMessage_of_pairwise (pairwise_of_areSorted h) messageSetItems message index

/-- Three occurrences whose numbers descend. -/
theorem dispatchMessage_descending :
    areSorted [⟨1, .int32, false, #[]⟩, ⟨5, .int32, true, #[]⟩, ⟨7, .bool, false, #[]⟩] = true ∧
      dispatchMessage false [0x38, 1, 0x28, 5, 0x08, 2] 4
          #[⟨1, .int32, false, #[]⟩, ⟨5, .int32, true, #[]⟩, ⟨7, .bool, false, #[]⟩] =
        lookupMessage false [0x38, 1, 0x28, 5, 0x08, 2] 4
          #[⟨1, .int32, false, #[]⟩, ⟨5, .int32, true, #[]⟩, ⟨7, .bool, false, #[]⟩] :=
  ⟨by decide, dispatchMessage_eq_lookupMessage (by decide) ..⟩

end Collector

end WireColumns
