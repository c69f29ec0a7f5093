import Mathlib
import WireColumns.Column.Collector

/-! # What a collector keeps

All that ever happens to a collector while a message is decoded is that values are added under the
message's index (`Collector.commitAll`). If no value has that index yet, the values already there
stay as they are, and behind them come the values the message keeps: all of them for a repeated
field, the last one for a singular field (`Collector.toList_commitAll`). Hence cutting the
collector back to its former size undoes the message (`Collector.truncate_commitAll`). -/

namespace WireColumns

/-- The values of one message that a field keeps. -/
def keptValues (repeated : Bool) (values : List Value) : List Value :=
  if repeated then values else values.getLast?.toList

namespace Collector

/-! ## Adding values -/

/-- Adding a value changes the entries only. -/
theorem commit_eq (c : Collector) (v : Value) (parent : Int) :
    c.commit v parent = { c with entries := (c.commit v parent).entries } := by
  unfold commit
  split <;> rfl

theorem toList_commit_of_ne {c : Collector} {parent : Int}
    (h : c.repeated = true ∨ c.entries.toList.getLast?.map Prod.snd ≠ some parent) (v : Value) :
    (c.commit v parent).entries.toList = c.entries.toList ++ [(v, parent)] := by
  rw [Array.getLast?_toList] at h
  rw [commit, if_neg]
  · exact Array.toList_push
  · simpa [or_iff_not_imp_left] using h

theorem toList_commit_of_eq {c : Collector} {parent : Int} (hr : c.repeated = false)
    (h : c.entries.toList.getLast?.map Prod.snd = some parent) (v : Value) :
    (c.commit v parent).entries.toList = c.entries.toList.dropLast ++ [(v, parent)] := by
  rw [Array.getLast?_toList] at h
  rw [commit, if_pos]
  · simp
  · simp [hr, h]

theorem commitAll_append (c : Collector) (vs ws : List Value) (parent : Int) :
    c.commitAll (vs ++ ws) parent = (c.commitAll vs parent).commitAll ws parent :=
  List.foldl_append

theorem commitAll_concat (c : Collector) (vs : List Value) (v : Value) (parent : Int) :
    c.commitAll (vs ++ [v]) parent = (c.commitAll vs parent).commit v parent :=
  List.foldl_append

theorem commitAll_eq (c : Collector) (vs : List Value) (parent : Int) :
    c.commitAll vs parent = { c with entries := (c.commitAll vs parent).entries } := by
  induction vs using List.reverseRecOn with
  | nil => rfl
  | append_singleton vs v ih =>
    rw [commitAll_concat, commit_eq]
    rw [ih]

@[simp] theorem commitAll_number (c : Collector) (vs : List Value) (parent : Int) :
    (c.commitAll vs parent).number = c.number := by
  rw [commitAll_eq]

@[simp] theorem commitAll_kind (c : Collector) (vs : List Value) (parent : Int) :
    (c.commitAll vs parent).kind = c.kind := by
  rw [commitAll_eq]

@[simp] theorem commitAll_repeated (c : Collector) (vs : List Value) (parent : Int) :
    (c.commitAll vs parent).repeated = c.repeated := by
  rw [commitAll_eq]

/-! ## New parents -/

/-- No value has been found under the parent yet. -/
def IsNew (c : Collector) (parent : Int) : Prop := ∀ e ∈ c.entries.toList, e.2 ≠ parent

/-- The parent of every value is below the bound. -/
def Below (c : Collector) (bound : Int) : Prop := ∀ e ∈ c.entries.toList, e.2 < bound

theorem Below.isNew {c : Collector} {bound : Int} (h : c.Below bound) : c.IsNew bound :=
  fun e he => Int.ne_of_lt (h e he)

/-- The last entry does not stand in the way of a new parent. -/
theorem IsNew.getLast?_ne {c : Collector} {parent : Int} (h : c.IsNew parent) :
    c.entries.toList.getLast?.map Prod.snd ≠ some parent := by
  cases he : c.entries.toList.getLast? with
  | none => exact nofun
  | some e => simpa using h e (List.mem_of_getLast? he)

theorem toList_commitAll {c : Collector} {parent : Int} (h : c.IsNew parent)
    (values : List Value) :
    (c.commitAll values parent).entries.toList =
      c.entries.toList ++ (keptValues c.repeated values).map (·, parent) := by
  induction values using List.reverseRecOn with
  | nil => cases hr : c.repeated <;> simp [keptValues, commitAll]
  | append_singleton vs v ih =>
    rw [commitAll_concat]
    cases hr : c.repeated with
    | true =>
      rw [toList_commit_of_ne (.inl (by rw [commitAll_repeated, hr])), ih, hr]
      simp [keptValues]
    | false =>
      rw [hr] at ih
      -- the first value of a new parent is added, every further one replaces it
      cases hv : vs.getLast? with
      | none =>
        obtain rfl := List.getLast?_eq_none_iff.1 hv
        exact toList_commit_of_ne (.inr h.getLast?_ne) v
      | some w =>
        have hlast : keptValues false vs = [w] := by simp [keptValues, hv]
        rw [hlast] at ih
        rw [toList_commit_of_eq (by rw [commitAll_repeated, hr]) (by simp [ih]), ih]
        simp [keptValues]

theorem commitAll_of_isNew {c : Collector} {parent : Int} (h : c.IsNew parent)
    (values : List Value) :
    c.commitAll values parent =
      { c with
        entries := c.entries ++ ((keptValues c.repeated values).map (·, parent)).toArray } := by
  have hentries : (c.commitAll values parent).entries =
      c.entries ++ ((keptValues c.repeated values).map (·, parent)).toArray := by
    rw [← Array.toList_inj, toList_commitAll h, Array.toList_append]
  rw [commitAll_eq, hentries]

/-- Cutting a collector back undoes what was added under a new parent. -/
theorem truncate_commitAll {c : Collector} {parent : Int} (h : c.IsNew parent)
    (values : List Value) : (c.commitAll values parent).truncate c.size = c := by
  have hentries : (c.commitAll values parent).entries.shrink c.size = c.entries := by
    rw [← Array.toList_inj, Array.toList_shrink, toList_commitAll h]
    exact List.take_left' rfl
  rw [commitAll_eq]
  simp only [truncate]
  rw [hentries]

theorem Below.commitAll {c : Collector} {parent : Int} (h : c.Below parent)
    (values : List Value) : (c.commitAll values parent).Below (parent + 1) := by
  intro e he
  rw [toList_commitAll h.isNew, List.mem_append, List.mem_map] at he
  rcases he with he | ⟨v, _, rfl⟩
  · exact Int.lt_trans (h e he) (Int.lt_succ parent)
  · exact Int.lt_succ parent

end Collector

end WireColumns
