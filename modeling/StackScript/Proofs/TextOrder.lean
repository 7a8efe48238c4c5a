import Mathlib.Data.List.Lex
import Mathlib.Data.String.Basic
import StackScript.Proofs.WellFormedText
/-!
# The order of texts

Texts are compared character by character.  The bytes of a character are laid out so that they
compare as the characters do, whatever stands behind them (`Utf8.Layout.append_lt`).  So the order
of two texts is that of their bytes (`Utf8.encode_lt_iff`).
-/

namespace StackScript.Utf8

theorem Layout.append_lt {v w : Nat} {bytes bytes' : List UInt8} (h : Layout v bytes)
    (h' : Layout w bytes') (hlt : v < w) (rest rest' : List UInt8) :
    bytes ++ rest < bytes' ++ rest' := by
  cases h <;> cases h' <;>
    simp only [List.cons_append, List.nil_append, List.cons_lt_cons_iff, UInt8.lt_iff_toNat_lt,
      ← UInt8.toNat_inj]
  case two.two b₀ b₁ hv h₀ h₁ c₀ c₁ hw k₀ k₁ =>
    have hbytes : b₀.toNat < c₀.toNat ∨ b₀.toNat = c₀.toNat ∧ b₁.toNat < c₁.toNat := by omega
    grind
  case three.three b₀ b₁ b₂ hv h₀ h₁ h₂ c₀ c₁ c₂ hw k₀ k₁ k₂ =>
    have hbytes : b₀.toNat < c₀.toNat ∨ b₀.toNat = c₀.toNat ∧
        (b₁.toNat < c₁.toNat ∨ b₁.toNat = c₁.toNat ∧ b₂.toNat < c₂.toNat) := by
      omega
    grind
  case four.four b₀ b₁ b₂ b₃ hv h₀ h₁ h₂ h₃ c₀ c₁ c₂ c₃ hw k₀ k₁ k₂ k₃ =>
    have hbytes : b₀.toNat < c₀.toNat ∨ b₀.toNat = c₀.toNat ∧
        (b₁.toNat < c₁.toNat ∨ b₁.toNat = c₁.toNat ∧
          (b₂.toNat < c₂.toNat ∨ b₂.toNat = c₂.toNat ∧ b₃.toNat < c₃.toNat)) := by
      omega
    grind
  all_goals exact .inl (by omega)

theorem flatMap_lt_of_lt {cs ds : List Char} (h : cs < ds) :
    cs.flatMap String.utf8EncodeChar < ds.flatMap String.utf8EncodeChar := by
  induction cs generalizing ds with
  | nil =>
    cases ds with
    | nil => exact absurd h (List.lt_irrefl _)
    | cons d ds =>
      obtain ⟨b, rest, hbytes⟩ := exists_utf8EncodeChar_eq_cons d
      rw [List.flatMap_cons, hbytes]
      exact List.nil_lt_cons _ _
  | cons c cs ih =>
    cases ds with
    | nil => exact absurd h (List.not_lt_nil _)
    | cons d ds =>
      rw [List.flatMap_cons, List.flatMap_cons]
      rcases List.cons_lt_cons_iff.mp h with hlt | ⟨rfl, hrest⟩
      · exact (layout_utf8EncodeChar c).append_lt (layout_utf8EncodeChar d) hlt _ _
      · exact List.append_left_lt (ih hrest)

theorem encode_lt_of_lt {s t : String} (h : s < t) : encode s < encode t :=
  flatMap_lt_of_lt (String.lt_iff_toList_lt.mp h)

/-- The order of texts is that of their bytes. -/
theorem encode_lt_iff {s t : String} : encode s < encode t ↔ s < t := by
  constructor
  · intro h
    rcases lt_trichotomy s t with hlt | rfl | hgt
    · exact hlt
    · exact absurd h (List.lt_irrefl _)
    · exact absurd h (List.lt_asymm (encode_lt_of_lt hgt))
  · exact encode_lt_of_lt

end StackScript.Utf8
