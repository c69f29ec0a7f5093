import WireColumns.Proofs.Column.Typing
import WireColumns.Table.ListArray

/-! # Columns as arrays

What is relied on where arrays and tables are built (`LawfulArrayLibrary`): an array of values holds
just these, and lists and tables are accepted if they pass the checks. The array of a column then
has the item type of the column's value type, whatever this is and however byte strings are stored
(`Column.IsTyped.toArray_stored`), and a ragged column becomes a list array
(`Column.IsRagged.toListArray_toArrays`) whose lists are the values under each parent
(`Column.IsRagged.lists_toLists`). -/

namespace WireColumns

open ArrayLibrary

/-- What arrays and tables are built of is in them, and it is accepted if lists and columns are
declared as what they are, nothing is null that may not be, offsets ascend within the items, and
columns are equally long. -/
class LawfulArrayLibrary [ArrayLibrary] : Prop where
  array_eq (type : ItemType) (values : List type.Native) :
    array type values = ⟨type, values.map fun v => some (type.value v)⟩
  listArray?_eq {item : ItemField} {offsets : List Nat} {values : ItemArray} :
    item.type = values.type → (item.nullable = true ∨ values.nullCount = 0) → offsets ≠ [] →
    offsets.Pairwise (· ≤ ·) → (∀ offset ∈ offsets, offset ≤ values.items.length) →
    listArray? item offsets values none = some ⟨item, offsets, values, none⟩
  table?_eq {schema : List TableField} {columns : List ListArray} {n : Nat} :
    columns ≠ [] → List.Forall₂ TableField.Admits schema columns → (∀ a ∈ columns, a.size = n) →
    table? schema columns = some ⟨n, schema, columns⟩

/-- The library that makes just these checks is a lawful one. -/
instance ArrayLibrary.lawful_checked : @LawfulArrayLibrary checked where
  array_eq _ _ := rfl
  listArray?_eq {item offsets values} htype hnulls hne hascending hrange := by
    have hnext : ∀ pair ∈ offsets.zip offsets.tail, pair.1 ≤ pair.2 := by
      intro pair hpair
      obtain ⟨i, hi, rfl⟩ := List.mem_iff_getElem.1 hpair
      rw [List.length_zip, List.length_tail] at hi
      rw [List.getElem_zip, List.getElem_tail]
      exact List.pairwise_iff_getElem.1 hascending i (i + 1) (by omega) (by omega) (by omega)
    exact if_pos ⟨htype, hnulls, hne, hnext, hrange, by simp⟩
  table?_eq {schema columns n} hne hadmits hsize := by
    obtain ⟨first, rest, rfl⟩ := List.exists_cons_of_ne_nil hne
    rw [List.forall_mem_cons] at hsize
    obtain ⟨rfl, hrest⟩ := hsize
    exact if_pos ⟨hadmits.length_eq, fun _ hpair => List.forall₂_zip hadmits hpair, hrest⟩

/-! ## Items -/

namespace ItemType

variable {type : ItemType}

@[simp] theorem native?_value (v : type.Native) : type.native? (type.value v) = some v := by
  cases type <;> rfl

/-- Nothing is lost of values that are items of the type. -/
theorem map_value_filterMap_native? {values : List Value}
    (h : ∀ v ∈ values, ∃ x : type.Native, type.value x = v) :
    ((values.filterMap type.native?).map fun x => some (type.value x)) = values.map some := by
  induction values with
  | nil => rfl
  | cons v values ih =>
    rw [List.forall_mem_cons] at h
    obtain ⟨⟨x, rfl⟩, hvalues⟩ := h
    rw [List.filterMap_cons_some (native?_value x), List.map_cons, List.map_cons, ih hvalues]

end ItemType

/-- A value is an item of the type that its own type becomes. -/
theorem Value.exists_native (v : Value) :
    ∃ x : v.type.itemType.Native, v.type.itemType.value x = v := by
  cases v <;> exact ⟨_, rfl⟩

/-! ## Lists -/

namespace ListArray

/-- The offsets are those of `n` lists, and all items are in one of them. -/
structure WellFormed (a : ListArray) (n : Nat) : Prop where
  length_offsets : a.offsets.length = n + 1
  ascending : a.offsets.Pairwise (· ≤ ·)
  head?_offsets : a.offsets.head? = some 0
  getLast?_offsets : a.offsets.getLast? = some a.values.items.length

/-- Cutting lists that stand one behind the other gives these lists. -/
theorem cut_flatten (seen : Array (List (Option Value))) (lists : List (List (Option Value))) :
    cut seen (lists.map List.length) lists.flatten = seen.toList ++ lists := by
  induction lists generalizing seen with
  | nil => simp [cut]
  | cons list lists ih =>
    rw [List.map_cons, List.flatten_cons, cut, List.splitAt_eq, List.take_left, List.drop_left]
    dsimp only
    rw [ih]
    simp

end ListArray

namespace Column

variable {c : Column} {n : Nat}

/-- The items of the column's values. -/
def toItems (c : Column) : ItemArray := ⟨c.type.itemType, c.values.map some⟩

/-- The lists of the values under the parents `0, …, n - 1`. -/
def toLists (c : Column) (n : Nat) : ListArray :=
  ⟨.ofType c.type.itemType, starts c.parents n, c.toItems, none⟩

theorem nullCount_toItems (c : Column) : c.toItems.nullCount = 0 :=
  List.countP_eq_zero.2 (List.forall_mem_map.2 fun _ _ => Bool.false_ne_true)

theorem size_toLists (c : Column) (n : Nat) : (c.toLists n).size = n := by
  rw [ListArray.size, toLists, length_starts, Nat.add_sub_cancel]

/-- The offsets of a ragged column reach from its start to its end. -/
theorem IsRagged.wellFormed_toLists (h : c.IsRagged n) : (c.toLists n).WellFormed n := by
  refine ⟨length_starts .., pairwise_starts .., ?_, ?_⟩
  · exact head?_starts (fun p hp => (h.in_range p hp).1) n
  · have hlast := getLast?_starts (n := n) fun p hp => (h.in_range p hp).2
    rwa [h.length_eq, ← List.length_map some] at hlast

/-- The lists of a ragged column are the values under each parent. -/
theorem IsRagged.lists_toLists (h : c.IsRagged n) :
    (c.toLists n).lists = (List.range n).map fun i : Nat => (c.valuesUnder i).map some := by
  have hcut := ListArray.cut_flatten #[]
    ((List.range n).map fun i : Nat => (c.valuesUnder i).map some)
  have hlengths : ((List.range n).map fun i : Nat => (c.valuesUnder i).map some).map List.length =
      (List.range n).map fun i : Nat => c.parents.count (i : Int) := by
    rw [← h.map_length_valuesUnder, List.map_map, List.map_map]
    exact List.map_congr_left fun i _ => List.length_map some
  have hitems : ((List.range n).map fun i : Nat => (c.valuesUnder i).map some).flatten =
      c.values.map some := by
    rw [← h.flatten_valuesUnder, List.map_flatten, List.map_map]
    rfl
  rw [hlengths, hitems] at hcut
  rw [ListArray.lists, toLists, zipWith_starts]
  exact hcut

variable [ArrayLibrary] [LawfulArrayLibrary]

/-- The array of a column has the type that is promised for values of the column's type, whatever
this is and however they are stored, and just these values. -/
theorem IsTyped.toArray_stored (h : c.IsTyped) : c.stored.toArray = c.toItems := by
  obtain ⟨type, ownership, values, parents⟩ := c
  have hnative : ∀ v ∈ values, ∃ x : type.itemType.Native, type.itemType.value x = v := by
    intro v hv
    obtain rfl := h v hv
    exact v.exists_native
  have harray : array type.itemType (values.filterMap type.itemType.native?) =
      ⟨type.itemType, values.map some⟩ := by
    rw [LawfulArrayLibrary.array_eq, ItemType.map_value_filterMap_native? hnative]
  cases type with
  | bytes => cases ownership <;> exact harray
  | bool | int32 | uint32 | int64 | uint64 | float | double => exact harray

/-- A ragged column is accepted as lists. -/
theorem IsRagged.toListArray_toArrays (h : c.IsRagged n) (htyped : c.IsTyped) :
    c.toArrays.toListArray n = .ok (c.toLists n) := by
  have hlength : c.toItems.items.length = c.parents.length := by
    rw [h.length_eq]
    exact List.length_map some
  have hrange : ∀ offset ∈ starts c.parents n, offset ≤ c.toItems.items.length := by
    intro offset hoffset
    obtain ⟨i, -, rfl⟩ := List.mem_map.1 hoffset
    exact hlength ▸ List.countP_le_length
  have hlists : listArray? (.ofType c.toItems.type) (starts c.parents n) c.toItems none =
      some (c.toLists n) := by
    refine LawfulArrayLibrary.listArray?_eq rfl (.inr c.nullCount_toItems) ?_ (pairwise_starts ..)
      hrange
    rw [← List.length_pos_iff, length_starts]
    exact Nat.succ_pos n
  rw [toArrays, htyped.toArray_stored, ArrayColumn.toListArray, if_neg (not_not.2 hlength)]
  simp only [listOffsets_eq h.ascending h.in_range, hlists, bind, Except.bind]
  rfl

end Column

end WireColumns
