import Mathlib
import WireColumns.Wire.Read

/-! # Reads that take just their bytes

`Read.Reads r p a` says that `r` takes just the bytes `p` off the front, whatever follows them, and
gives `a`. A group is read up to the tag that closes it if its contents leave the number of open
groups as it was (`Read.Passes`). -/

namespace WireColumns.Read

variable {α β : Type}

/-- The read takes the bytes off whatever they are followed by. -/
def Reads (r : Read α) (p : Bytes) (a : α) : Prop := ∀ rest, r (p ++ rest) = .ok a rest

theorem Reads.map {r : Read α} {p : Bytes} {a : α} (h : Reads r p a) (f : α → β) :
    Reads (f <$> r) p (f a) := by
  intro rest
  simp only [Functor.map, EStateM.map]
  rw [h rest]

theorem Reads.eval {r : Read α} {p : Bytes} {a : α} (h : Reads r p a) : r.eval p = .ok a := by
  have hread := h []
  rw [List.append_nil] at hread
  rw [Read.eval, hread]

theorem eval_map (f : α → β) (r : Read α) (s : Bytes) : (f <$> r).eval s = f <$> r.eval s := by
  simp only [eval, Functor.map, EStateM.map]
  cases r s <;> rfl

theorem map_eq_error_iff {f : α → β} {r : Read α} {s rest : Bytes} {e : Corruption} :
    (f <$> r) s = .error e rest ↔ r s = .error e rest := by
  simp only [Functor.map, EStateM.map]
  cases r s <;> simp

theorem Reads.ne_nil {r : Read α} {p : Bytes} {a : α} (h : Reads r p a) (hr : Advances r) :
    p ≠ [] := by
  rintro rfl
  exact Nat.lt_irrefl _ (hr (h []))

/-! ## Groups -/

/-- Reading past these bytes leaves the number of open groups as it was. -/
def Passes (p : Bytes) : Prop :=
  ∀ depth seen rest, closeGroup depth seen (p ++ rest) = closeGroup depth (p.reverse ++ seen) rest

theorem passes_nil : Passes [] := fun _ _ _ => rfl

theorem Passes.append {p q : Bytes} (hp : Passes p) (hq : Passes q) : Passes (p ++ q) := by
  intro depth seen rest
  rw [List.append_assoc, hp, hq, List.reverse_append, List.append_assoc]

theorem passes_flatMap {f : α → Bytes} {as : List α} (h : ∀ a ∈ as, Passes (f a)) :
    Passes (as.flatMap f) := by
  induction as with
  | nil => exact passes_nil
  | cons a as ih =>
    rw [List.flatMap_cons]
    exact (h a List.mem_cons_self).append (ih fun b hb => h b (List.mem_cons_of_mem a hb))

theorem closeGroup_tag {lead payload : Bytes} {tag : Tag} (hlead : Reads header lead (lead, tag))
    (hpayload : Reads (flatPayload tag.wire) payload payload) (depth : Nat)
    (hdepth : ¬ (tag.wire = .endGroup ∧ depth = 0)) (seen rest : Bytes) :
    closeGroup depth seen (lead ++ payload ++ rest) =
      closeGroup (depthAfter depth tag.wire) ((lead ++ payload).reverse ++ seen) rest := by
  have hempty : (lead ++ payload ++ rest).isEmpty = false := by
    simp [hlead.ne_nil header_advances]
  have hhead := hlead (payload ++ rest)
  rw [← List.append_assoc] at hhead
  rw [closeGroup, hempty, if_neg Bool.false_ne_true]
  split
  next herror => cases hhead.symm.trans herror
  next hok =>
    cases hhead.symm.trans hok
    rw [if_neg hdepth]
    split
    next herror => cases (hpayload rest).symm.trans herror
    next hok =>
      cases (hpayload rest).symm.trans hok
      rw [List.reverseAux_eq, List.reverseAux_eq, List.reverse_append, List.append_assoc]

theorem closeGroup_end {lead : Bytes} {tag : Tag} (hlead : Reads header lead (lead, tag))
    (htag : tag.wire = .endGroup) (seen rest : Bytes) :
    closeGroup 0 seen (lead ++ rest) = .ok (seen.reverse, lead) rest := by
  have hempty : (lead ++ rest).isEmpty = false := by simp [hlead.ne_nil header_advances]
  rw [closeGroup, hempty, if_neg Bool.false_ne_true]
  split
  next herror => cases (hlead rest).symm.trans herror
  next hok =>
    cases (hlead rest).symm.trans hok
    rw [if_pos ⟨htag, rfl⟩]

/-- A tag with a payload of its own leaves the open groups alone. -/
theorem passes_flat {lead payload : Bytes} {tag : Tag} (hlead : Reads header lead (lead, tag))
    (hpayload : Reads (flatPayload tag.wire) payload payload) (hstart : tag.wire ≠ .startGroup)
    (hend : tag.wire ≠ .endGroup) : Passes (lead ++ payload) := by
  intro depth seen rest
  have hdepth : depthAfter depth tag.wire = depth := by
    cases hw : tag.wire with
    | startGroup => exact absurd hw hstart
    | endGroup => exact absurd hw hend
    | varint | fixed64 | lengthDelimited | fixed32 => rfl
  rw [closeGroup_tag hlead hpayload depth (fun h => hend h.1), hdepth]

section

variable {opening closing contents : Bytes} {number : UInt32}
  (hclosing : Reads header closing (closing, ⟨number, .endGroup⟩)) (hcontents : Passes contents)
include hclosing hcontents

/-- A group is opened and closed again, by a tag with any field number. -/
theorem passes_group {other : UInt32}
    (hopening : Reads header opening (opening, ⟨other, .startGroup⟩)) :
    Passes (opening ++ (contents ++ closing)) := by
  intro depth seen rest
  have hnone : ∀ wire, wire = .startGroup ∨ wire = .endGroup → Reads (flatPayload wire) [] [] := by
    rintro wire (rfl | rfl) rest <;> rfl
  have hopen := closeGroup_tag hopening (hnone _ (.inl rfl)) depth (by simp) seen
    (contents ++ (closing ++ rest))
  have hclose := closeGroup_tag hclosing (hnone _ (.inr rfl)) (depth + 1) (by simp)
    (contents.reverse ++ (opening.reverse ++ seen)) rest
  rw [List.append_nil] at hopen hclose
  calc closeGroup depth seen (opening ++ (contents ++ closing) ++ rest)
      = closeGroup depth seen (opening ++ (contents ++ (closing ++ rest))) := by
        simp only [List.append_assoc]
    _ = closeGroup (depth + 1) (opening.reverse ++ seen) (contents ++ (closing ++ rest)) := hopen
    _ = closeGroup (depth + 1) (contents.reverse ++ (opening.reverse ++ seen)) (closing ++ rest) :=
        hcontents ..
    _ = closeGroup depth (closing.reverse ++ (contents.reverse ++ (opening.reverse ++ seen)))
          rest := hclose
    _ = closeGroup depth ((opening ++ (contents ++ closing)).reverse ++ seen) rest := by
        simp only [List.reverse_append, List.append_assoc]

theorem reads_groupParts : Reads groupParts (contents ++ closing) (contents, closing) := by
  intro rest
  rw [groupParts, List.append_assoc, hcontents, closeGroup_end hclosing rfl, List.append_nil,
    List.reverse_reverse]

end

end WireColumns.Read
