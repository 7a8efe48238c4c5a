import StackScript.Echo.Program
import StackScript.Proofs.Grammar
import StackScript.Proofs.Relocation
import StackScript.Proofs.WellFormedText
/-!
# Texts in programs

A text that is escaped and put between quotes is read back as that text, wherever it comes from and
whatever stands behind it.  What stands behind it is read as if it stood alone, at its place.
-/

namespace StackScript

namespace Location

/-- The place in a source of a place in some bytes that start at the origin. -/
def shift (origin l : Location) : Location :=
  if l.line = 1 then ⟨origin.line, origin.column + (l.column - 1)⟩
  else ⟨origin.line + (l.line - 1), l.column⟩

theorem after_shift (origin : Location) {l : Location} (hline : 0 < l.line) (hcolumn : 0 < l.column)
    (b : UInt8) : (origin.shift l).after b = origin.shift (l.after b) := by
  obtain ⟨line, column⟩ := l
  dsimp only at hline hcolumn
  have hzero : line ≠ 0 := Nat.pos_iff_ne_zero.mp hline
  by_cases hb : b = 10
  · by_cases hfirst : line = 1
    · simp [shift, after, hb, hfirst]
    · simp [shift, after, hb, hfirst, hzero]
      omega
  · by_cases hfirst : line = 1
    · simp [shift, after, hb, hfirst]
      omega
    · simp [shift, after, hb, hfirst]

theorem afterAll_eq_shift (origin : Location) (bytes : List UInt8) :
    origin.afterAll bytes = origin.shift (behind bytes) := by
  induction bytes using List.reverseRecOn with
  | nil => simp [behind, shift]
  | append_singleton bytes b ih =>
    have hline : 0 < (behind bytes).line := Nat.add_pos_left Nat.one_pos _
    have hcolumn : 0 < (behind bytes).column := Nat.add_pos_left Nat.one_pos _
    rw [afterAll_append, ih, behind_append]
    exact after_shift origin hline hcolumn b

end Location

section Escape

variable {body bytes body' bytes' : List UInt8}

theorem Escaped.append (h : Escaped body bytes) (h' : Escaped body' bytes') :
    Escaped (body ++ body') (bytes ++ bytes') := by
  induction h with
  | nil => exact h'
  | byte hquote hbackslash _ ih => exact .byte hquote hbackslash ih
  | lineFeed _ ih => exact .lineFeed ih
  | tab _ ih => exact .tab ih
  | itself hlineFeed htab _ ih => exact .itself hlineFeed htab ih

theorem escaped_of_forall (h : ∀ b ∈ bytes, b ≠ Mark.quote ∧ b ≠ Mark.backslash) :
    Escaped bytes bytes := by
  induction bytes with
  | nil => exact .nil
  | cons b bytes ih =>
    have hb := h b List.mem_cons_self
    exact .byte hb.1 hb.2 (ih fun a ha => h a (List.mem_cons_of_mem b ha))

theorem escaped_escapeChar (c : Char) :
    Escaped ((Message.escapeChar c).flatMap String.utf8EncodeChar) (String.utf8EncodeChar c) := by
  by_cases hbackslash : c = '\\'
  · rw [hbackslash]
    exact .itself (by decide) (by decide) .nil
  · by_cases hquote : c = '"'
    · rw [hquote]
      exact .itself (by decide) (by decide) .nil
    · rw [Message.escapeChar, if_neg hbackslash, if_neg hquote, List.flatMap_singleton]
      refine escaped_of_forall fun b hb => ⟨?_, ?_⟩
      · rintro rfl
        exact hquote ((Utf8.mem_utf8EncodeChar_iff (by decide)).mp hb)
      · rintro rfl
        exact hbackslash ((Utf8.mem_utf8EncodeChar_iff (by decide)).mp hb)

theorem escaped_escape (text : String) :
    Escaped (Utf8.encode (Message.escape text)) (Utf8.encode text) := by
  have hchars (cs : List Char) :
      Escaped ((cs.flatMap Message.escapeChar).flatMap String.utf8EncodeChar)
        (cs.flatMap String.utf8EncodeChar) := by
    induction cs with
    | nil => exact .nil
    | cons c cs ih =>
      rw [List.flatMap_cons, List.flatMap_append, List.flatMap_cons]
      exact (escaped_escapeChar c).append ih
  rw [Message.escape, Utf8.encode_ofList, Utf8.encode]
  exact hchars text.toList

end Escape

namespace Cursor

theorem tokens_quoted {body bytes : List UInt8} (h : Escaped body bytes) (rest : Source) :
    (ofSource { rest with bytes := Mark.quote :: body ++ Mark.quote :: rest.bytes }).tokens =
      (⟨.start, .text (Utf8.decodeLossy bytes)⟩ ::
          (ofSource rest).tokens.1.map
            (Token.relocate (Location.behind (Mark.quote :: body ++ [Mark.quote])).shift),
        (ofSource rest).tokens.2.map
          (Cause.relocate (Location.behind (Mark.quote :: body ++ [Mark.quote])).shift)) := by
  generalize hc : ofSource { rest with bytes := Mark.quote :: body ++ Mark.quote :: rest.bytes } = c
  have hpending : c.pending = Mark.quote :: body ++ Mark.quote :: rest.bytes := by
    rw [← hc]
    rfl
  have hlexeme : c.lexeme =
      ⟨.text bytes, Mark.quote :: body ++ [Mark.quote], rest.bytes, .complete⟩ := by
    have hcut := Lexeme.cut_quote_append h rest.bytes
    rwa [lexeme, hpending]
  have hstart : c.tokenStart = .start := by
    rw [tokenStart, hpending, ← hc]
    rfl
  have htoken : c.token = (.ok ⟨.start, .text (Utf8.decodeLossy bytes)⟩, c.skip c.lexeme) := by
    simp [token, hlexeme, hstart, Lexeme.form]
  have hrest : Relocated (Location.behind (Mark.quote :: body ++ [Mark.quote])).shift
      (ofSource rest) (c.skip c.lexeme) := by
    refine ⟨?_, ?_, fun more => ?_⟩
    · rw [pending_skip, hlexeme]
      rfl
    · rw [failure_skip, ← hc]
      rfl
    · rw [location_skip, hstart, hlexeme, ← Location.behind_eq_afterAll,
        Location.afterAll_eq_shift, Location.behind_eq_afterAll more]
      rfl
  rw [tokens_of_token htoken (by simp), tokens_relocate hrest]

end Cursor

end StackScript
