import Mathlib.Data.List.Infix
import StackScript.Proofs.Grammar
import StackScript.Proofs.WellFormedText
/-!
# Texts with matching brackets

The scanner closes brackets by their nesting.  By counting, that is to say that no first part closes
more than it opens, and that as many are closed as are opened (`balanced_iff_matched`).  Brackets
are bytes of their own, and the decoding of bytes that are no UTF-8 leaves them where they are.  So
it is the same to count the brackets of a text, of its bytes, or of any bytes that it was decoded
from (`bracketed_decodeLossy_iff`).
-/

namespace StackScript

/-- Behind as many open marks as the depth says, no first part closes more than are open, and the
whole leaves none open. -/
structure Matched {α : Type} [DecidableEq α] (opening closing : α) (depth : Nat) (l : List α) :
    Prop where
  count_le : ∀ before, before <+: l → before.count closing ≤ depth + before.count opening
  count_eq : l.count closing = depth + l.count opening

section Matched

variable {α : Type} [DecidableEq α] {opening closing : α} {depth : Nat} {l : List α}

theorem matched_nil_iff : Matched opening closing depth [] ↔ depth = 0 := by
  constructor
  · intro h
    simpa using h.count_eq.symm
  · intro h
    constructor <;> simp [h]

private theorem matched_cons_iff {a : α} {next : Nat}
    (h : ∀ s : List α, depth + (a :: s).count opening + s.count closing =
      next + s.count opening + (a :: s).count closing) :
    Matched opening closing depth (a :: l) ↔ Matched opening closing next l := by
  constructor
  · intro hl
    constructor
    · intro before hbefore
      have hle := hl.count_le (a :: before) (by simpa using hbefore)
      have hs := h before
      omega
    · have heq := hl.count_eq
      have hs := h l
      omega
  · intro hl
    constructor
    · intro before hbefore
      rcases List.prefix_cons_iff.mp hbefore with rfl | ⟨rest, rfl, hrest⟩
      · simp
      · have hle := hl.count_le rest hrest
        have hs := h rest
        omega
    · have heq := hl.count_eq
      have hs := h l
      omega

theorem matched_opening_iff (hmarks : opening ≠ closing) :
    Matched opening closing depth (opening :: l) ↔ Matched opening closing (depth + 1) l := by
  apply matched_cons_iff
  intro s
  rw [List.count_cons_self, List.count_cons_of_ne hmarks]
  omega

theorem not_matched_closing (hmarks : opening ≠ closing) :
    ¬ Matched opening closing 0 (closing :: l) := by
  intro h
  have hfirst := h.count_le [closing] (by simp)
  simp [hmarks.symm] at hfirst

theorem matched_closing_iff (hmarks : opening ≠ closing) :
    Matched opening closing (depth + 1) (closing :: l) ↔ Matched opening closing depth l := by
  apply matched_cons_iff
  intro s
  rw [List.count_cons_self, List.count_cons_of_ne hmarks.symm]
  omega

theorem matched_other_iff {a : α} (hopening : a ≠ opening) (hclosing : a ≠ closing) :
    Matched opening closing depth (a :: l) ↔ Matched opening closing depth l := by
  apply matched_cons_iff
  intro s
  rw [List.count_cons_of_ne hopening, List.count_cons_of_ne hclosing]

theorem matched_filter_iff (hmarks : opening ≠ closing) {p : α → Bool} (hopening : p opening)
    (hclosing : p closing) :
    Matched opening closing depth (l.filter p) ↔ Matched opening closing depth l := by
  induction l generalizing depth with
  | nil => rfl
  | cons a l ih =>
    by_cases ho : a = opening
    · rw [ho, List.filter_cons_of_pos hopening, matched_opening_iff hmarks,
        matched_opening_iff hmarks, ih]
    by_cases hc : a = closing
    · rw [hc, List.filter_cons_of_pos hclosing]
      cases depth with
      | zero => simp [not_matched_closing hmarks]
      | succ depth => rw [matched_closing_iff hmarks, matched_closing_iff hmarks, ih]
    rw [matched_other_iff ho hc, ← ih]
    by_cases hp : p a
    · rw [List.filter_cons_of_pos hp, matched_other_iff ho hc]
    · rw [List.filter_cons_of_neg hp]

theorem matched_map_iff {β : Type} [DecidableEq β] {f : α → β} (hf : Function.Injective f)
    (hmarks : opening ≠ closing) :
    Matched (f opening) (f closing) depth (l.map f) ↔ Matched opening closing depth l := by
  have hmarks' : f opening ≠ f closing := hf.ne hmarks
  induction l generalizing depth with
  | nil => rw [List.map_nil, matched_nil_iff, matched_nil_iff]
  | cons a l ih =>
    rw [List.map_cons]
    by_cases ho : a = opening
    · rw [ho, matched_opening_iff hmarks, matched_opening_iff hmarks']
      exact ih
    by_cases hc : a = closing
    · rw [hc]
      cases depth with
      | zero => simp [not_matched_closing hmarks, not_matched_closing hmarks']
      | succ depth =>
        rw [matched_closing_iff hmarks, matched_closing_iff hmarks']
        exact ih
    rw [matched_other_iff ho hc, matched_other_iff (hf.ne ho) (hf.ne hc)]
    exact ih

end Matched

section Bytes

variable {opening closing : UInt8} {body : List UInt8}

theorem Balanced.matched_append_iff (h : Balanced opening closing body)
    (hmarks : opening ≠ closing) {depth : Nat} {rest : List UInt8} :
    Matched opening closing depth (body ++ rest) ↔ Matched opening closing depth rest := by
  induction h generalizing depth rest with
  | nil => rw [List.nil_append]
  | byte hopening hclosing _ ih => rw [List.cons_append, matched_other_iff hopening hclosing, ih]
  | nested _ _ ihinner ihrest =>
    rw [List.append_assoc, List.cons_append, matched_opening_iff hmarks, ihinner, List.cons_append,
      matched_closing_iff hmarks, ihrest]

theorem closes_of_matched (hmarks : opening ≠ closing) {depth : Nat}
    (h : Matched opening closing depth body) : Closes opening closing depth body := by
  induction body generalizing depth with
  | nil =>
    rw [matched_nil_iff.mp h]
    exact .last .nil
  | cons b body ih =>
    by_cases ho : b = opening
    · rw [ho, matched_opening_iff hmarks] at h
      rw [ho]
      exact (ih h).opened
    by_cases hc : b = closing
    · rw [hc] at h ⊢
      cases depth with
      | zero => exact absurd h (not_matched_closing hmarks)
      | succ depth =>
        rw [matched_closing_iff hmarks] at h
        exact .mark .nil (ih h)
    rw [matched_other_iff ho hc] at h
    exact (ih h).byte ho hc

/-- Bytes in which each mark has its partner are those that no first part of closes too much. -/
theorem balanced_iff_matched (hmarks : opening ≠ closing) :
    Balanced opening closing body ↔ Matched opening closing 0 body := by
  constructor
  · intro h
    rw [← List.append_nil body, h.matched_append_iff hmarks, matched_nil_iff]
  · intro h
    cases closes_of_matched hmarks h with
    | last hbody => exact hbody

end Bytes

/-- A text in which no first part closes more brackets than it opens, and which closes as many as it
opens. -/
def Bracketed (text : String) : Prop :=
  (∀ before, before <+: text.toList → before.count ']' ≤ before.count '[') ∧
    text.toList.count ']' = text.toList.count '['

instance (text : String) : Decidable (Bracketed text) :=
  decidable_of_iff
    ((∀ before ∈ text.toList.inits, before.count ']' ≤ before.count '[') ∧
      text.toList.count ']' = text.toList.count '[')
    (by simp [Bracketed])

theorem bracketed_iff_matched {text : String} :
    Bracketed text ↔ Matched '[' ']' 0 text.toList := by
  constructor
  · intro h
    constructor
    · simpa using h.1
    · simpa using h.2
  · intro h
    exact ⟨by simpa using h.count_le, by simpa using h.count_eq⟩

/-- The brackets of a text that was decoded are those of the bytes, also where these are no
UTF-8. -/
theorem bracketed_decodeLossy_iff (bytes : List UInt8) :
    Bracketed (Utf8.decodeLossy bytes) ↔
      Balanced Mark.openBracket Mark.closeBracket bytes := by
  have hmarks : Mark.openBracket ≠ Mark.closeBracket := by decide
  have hchars : Matched '[' ']' 0 ((Utf8.decodeLossyFrom 0 bytes).filter (·.toNat < 0x80)) ↔
      Matched '[' ']' 0 (Utf8.decodeLossyFrom 0 bytes) :=
    matched_filter_iff (by decide) rfl rfl
  have hbytes : Matched Mark.openBracket Mark.closeBracket 0 (bytes.filter (·.toNat < 0x80)) ↔
      Matched Mark.openBracket Mark.closeBracket 0 bytes :=
    matched_filter_iff hmarks rfl rfl
  rw [bracketed_iff_matched, balanced_iff_matched hmarks, Utf8.decodeLossy, String.toList_ofList,
    ← hchars, ← hbytes, Utf8.filter_decodeLossyFrom]
  exact matched_map_iff Utf8.injective_ofNat_toNat hmarks

/-- A text has matching brackets when its bytes have. -/
theorem bracketed_iff_balanced (text : String) :
    Bracketed text ↔ Balanced Mark.openBracket Mark.closeBracket (Utf8.encode text) := by
  rw [← bracketed_decodeLossy_iff, Utf8.decodeLossy_encode]

theorem item_quotation {code : String} (h : Bracketed code) (after : List UInt8) :
    Item after (Utf8.encode ("[" ++ code ++ "]")) (.quotation code) := by
  have hbody := ((bracketed_iff_balanced code).mp h).isBody (by decide) after
  have hitem := Item.quotation hbody
  have hbytes : Utf8.encode ("[" ++ code ++ "]") =
      Mark.openBracket :: Utf8.encode code ++ [Mark.closeBracket] := by
    simp only [Utf8.encode_append]
    rfl
  rwa [Utf8.decodeLossy_encode, ← hbytes] at hitem

theorem Item.bracketed {after bytes : List UInt8} {code : String}
    (h : Item after bytes (.quotation code)) : Bracketed code := by
  cases h with
  | quotation hbody => exact (bracketed_decodeLossy_iff _).mpr hbody.balanced

/-- Whatever source it is read from, the code of a quotation has matching brackets. -/
theorem Cursor.bracketed_of_token {c after : Cursor} {t : Token} {code : String}
    (h : c.token = (.ok t, after)) (hform : t.form = .quotation code) : Bracketed code := by
  have hlexeme := (skip_of_token h).2
  have hbytes : c.pending.dropWhile isBlank ≠ [] := by
    intro hnil
    rw [dropWhile_isBlank_eq_nil_iff h, hform] at hnil
    cases hnil
  have hitem := item_of_cut hbytes hlexeme
  rw [hform] at hitem
  exact hitem.bracketed

end StackScript
