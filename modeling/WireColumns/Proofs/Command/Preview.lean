import WireColumns.Command.Inspect
import WireColumns.Proofs.Text.Utf8

/-! # Previews of texts

A text that is too long to be shown in full is cut in front of the character that does not fit any
more. What is shown of it is a text again, and a longer one would not fit
(`Inspect.preview_shows_longest_text`). -/

namespace WireColumns.Inspect

open Utf8 (encode)

variable {n k : Nat} {p : Nat → Bool} {text shown hidden other : List Char} {c : Char}

/-- The search from above finds the greatest number there is. -/
theorem find?_reverse_range (hlt : k < n) (hk : p k = true)
    (hnone : ∀ i, k < i → i < n → p i = false) :
    (List.range n).reverse.find? p = some k := by
  induction n with
  | zero => cases hlt
  | succ n ih =>
    rw [List.range_succ, List.reverse_append, List.reverse_singleton, List.singleton_append]
    rcases Nat.lt_succ_iff_lt_or_eq.1 hlt with hlt | rfl
    · rw [List.find?_cons_of_neg (by simp [hnone n hlt n.lt_succ_self])]
      exact ih hlt fun i hi hin => hnone i hi (Nat.lt_succ_of_lt hin)
    · exact List.find?_cons_of_pos hk

theorem length_encode_append (shown hidden : List Char) :
    (encode (shown ++ hidden)).length = (encode shown).length + (encode hidden).length := by
  rw [Utf8.encode_append, List.length_append]

/-- A text in front of a place in a character does not hold that character. -/
theorem prefix_of_length_encode_lt (h : other <+: shown ++ c :: hidden)
    (hlt : (encode other).length < (encode (shown ++ [c])).length) : other <+: shown := by
  have hnext : shown ++ [c] <+: shown ++ c :: hidden := ⟨hidden, by simp⟩
  rcases List.prefix_or_prefix_of_prefix h hnext with h | ⟨rest, rfl⟩
  · rcases List.prefix_concat_iff.1 h with rfl | h
    · exact absurd hlt (Nat.lt_irrefl _)
    · exact h
  · rw [length_encode_append (shown ++ [c])] at hlt
    omega

/-! ## Where a text is cut -/

section

variable (hshown : (encode shown).length ≤ maxPreview)
  (hnext : maxPreview < (encode (shown ++ [c])).length)
include hshown hnext

/-- The cut is at the last boundary in reach. -/
theorem previewCut_eq : previewCut (encode (shown ++ c :: hidden)) = (encode shown).length := by
  have hcut : Utf8.isBoundary (encode (shown ++ c :: hidden)) (encode shown).length = true :=
    Utf8.isBoundary_encode_iff.2 ⟨shown, c :: hidden, rfl, rfl⟩
  have hnone : ∀ i, (encode shown).length < i → i < maxPreview + 1 →
      Utf8.isBoundary (encode (shown ++ c :: hidden)) i = false := by
    intro i hlt hle
    rw [← Bool.not_eq_true, Utf8.isBoundary_encode_iff]
    rintro ⟨other, rest, htext, rfl⟩
    obtain ⟨new, rfl⟩ := prefix_of_length_encode_lt ⟨rest, htext.symm⟩ (by omega)
    rw [length_encode_append] at hlt
    omega
  rw [previewCut, find?_reverse_range (Nat.lt_succ_of_le hshown) hcut hnone, Option.getD_some]

theorem take_previewCut : (encode (shown ++ c :: hidden)).take
    (previewCut (encode (shown ++ c :: hidden))) = encode shown := by
  rw [previewCut_eq hshown hnext, Utf8.encode_append, List.take_left]

end

/-- A character of four bytes does not fit in behind 46 of one byte. -/
example : previewCut (encode (List.replicate 46 'x' ++ ['😀', 'x'])) = 46 := by decide

/-! ## What is shown -/

theorem decode?_encode (text : List Char) : Utf8.decode? (encode text) = some text :=
  Utf8.decode?_eq_some_iff.2 rfl

theorem preview_of_ne_encode {payload : Bytes} (h : ∀ text, payload ≠ encode text) :
    preview payload = s!"{payload.length} bytes, not UTF-8" := by
  have hnone : Utf8.decode? payload = none :=
    Option.eq_none_iff_forall_ne_some.2 fun text htext => h text (Utf8.decode?_eq_some_iff.1 htext)
  rw [preview, hnone]

theorem preview_encode_short (h : (encode text).length ≤ maxPreview) :
    preview (encode text) = String.ofList (Text.quote text) := by
  rw [preview, decode?_encode]
  exact if_pos h

theorem preview_encode_long (hshown : (encode shown).length ≤ maxPreview)
    (hnext : maxPreview < (encode (shown ++ [c])).length) :
    preview (encode (shown ++ c :: hidden)) = String.ofList (Text.quote shown) ++
      s!"... ({(encode (shown ++ c :: hidden)).length} bytes)" := by
  have hlong : ¬ (encode (shown ++ c :: hidden)).length ≤ maxPreview := by
    have happend := length_encode_append (shown ++ [c]) hidden
    rw [List.append_assoc, List.singleton_append] at happend
    omega
  rw [preview, decode?_encode]
  dsimp only
  rw [if_neg hlong, take_previewCut hshown hnext, decode?_encode, Option.getD_some]

/-- What is shown of a payload: all of a short text; of a long one the characters that fit, which
are the bytes up to a boundary among the last four places in reach, with every text that fits and
that the payload begins with; of no text only the length. -/
theorem preview_shows_longest_text (payload : Bytes) :
    ((∀ text, payload ≠ encode text) →
      preview payload = s!"{payload.length} bytes, not UTF-8") ∧
    ∀ text, payload = encode text →
      (payload.length ≤ 48 → preview payload = String.ofList (Text.quote text)) ∧
      (48 < payload.length →
        45 ≤ previewCut payload ∧ previewCut payload ≤ 48 ∧
        Utf8.isBoundary payload (previewCut payload) = true ∧
        ∃ shown, shown <+: text ∧ payload.take (previewCut payload) = encode shown ∧
          (∀ other, encode other <+: payload → (encode other).length ≤ 48 → other <+: shown) ∧
          preview payload =
            String.ofList (Text.quote shown) ++ s!"... ({payload.length} bytes)") := by
  refine ⟨preview_of_ne_encode, ?_⟩
  rintro text rfl
  refine ⟨preview_encode_short, fun hlong => ?_⟩
  obtain ⟨shown, c, hidden, rfl, hshown, hnext, hfour⟩ := Utf8.exists_cut hlong
  rw [take_previewCut hshown hnext, previewCut_eq hshown hnext]
  refine ⟨by omega, hshown, Utf8.isBoundary_encode_iff.2 ⟨shown, _, rfl, rfl⟩, shown,
    List.prefix_append .., rfl, ?_, preview_encode_long hshown hnext⟩
  rintro other ⟨rest, hrest⟩ hfits
  obtain ⟨new, htext, -⟩ := Utf8.exists_of_encode_append hrest.symm
  exact prefix_of_length_encode_lt ⟨new, htext.symm⟩ (by omega)

end WireColumns.Inspect
