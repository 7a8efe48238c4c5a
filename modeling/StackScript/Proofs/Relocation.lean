import StackScript.Proofs.Reading
/-!
# Bytes at another place

What is read off some bytes does not depend on the place where they stand, apart from the places
that the tokens and the problem behind them name (`Cursor.tokens_relocate`).
-/

namespace StackScript

def Token.relocate (move : Location → Location) (t : Token) : Token :=
  { t with location := move t.location }

def Cause.relocate (move : Location → Location) : Cause → Cause
  | .malformed problem location => .malformed problem (move location)
  | cause => cause

namespace Cursor

variable {move : Location → Location} {c c' : Cursor}

/-- The second cursor is at the same bytes, and every place behind it is where the first one's is
moved to. -/
structure Relocated (move : Location → Location) (c c' : Cursor) : Prop where
  pending : c'.pending = c.pending
  failure : c'.source.failure = c.source.failure
  location : ∀ bytes, c'.location.afterAll bytes = move (c.location.afterAll bytes)

theorem Relocated.tokenStart (h : Relocated move c c') : c'.tokenStart = move c.tokenStart := by
  rw [Cursor.tokenStart, h.pending, h.location]
  rfl

theorem Relocated.skip (h : Relocated move c c') (cut : Cut) :
    Relocated move (c.skip cut) (c'.skip cut) := by
  refine ⟨by simp only [pending_skip], by simp only [failure_skip, h.failure], ?_⟩
  intro bytes
  have hbytes := h.location (c.pending.takeWhile isBlank ++ (cut.used ++ bytes))
  simp only [location_skip, Cursor.tokenStart, h.pending, Location.afterAll_append] at hbytes ⊢
  exact hbytes

theorem Relocated.token (h : Relocated move c c') :
    c'.token.1 = (c.token.1.map (Token.relocate move)).mapError (Cause.relocate move) ∧
      ∀ t after, c.token = (.ok t, after) → Relocated move after c'.token.2 := by
  have hlexeme : c'.lexeme = c.lexeme := by
    rw [lexeme, lexeme, h.pending]
  have hskip := h.skip c.lexeme
  have hplace : (c'.skip c.lexeme).location = move (c.skip c.lexeme).location :=
    hskip.location []
  simp only [Cursor.token, hlexeme, h.failure, h.tokenStart]
  split
  · exact ⟨rfl, by simp⟩
  · cases c.lexeme.lexeme.form with
    | ok form =>
      refine ⟨rfl, ?_⟩
      intro t after heq
      obtain ⟨-, rfl⟩ := Prod.mk.inj heq
      exact hskip
    | error problem =>
      refine ⟨?_, by simp⟩
      rw [hplace]
      rfl

/-- The tokens at the other place, and the problem behind them. -/
theorem tokens_relocate (h : Relocated move c c') :
    c'.tokens =
      (c.tokens.1.map (Token.relocate move), c.tokens.2.map (Cause.relocate move)) := by
  induction c using token_induction generalizing c' with
  | step c ih =>
    obtain ⟨hresult, hrest⟩ := h.token
    rcases htoken : c.token with ⟨result, after⟩
    rcases htoken' : c'.token with ⟨result', after'⟩
    rw [htoken, htoken'] at hresult
    cases result with
    | error cause =>
      obtain rfl : result' = .error (cause.relocate move) := hresult
      rw [tokens_of_error htoken, tokens_of_error htoken']
      rfl
    | ok t =>
      obtain rfl : result' = .ok (t.relocate move) := hresult
      by_cases ht : t.form = .endOfInput
      · rw [tokens_of_end htoken ht, tokens_of_end htoken' ht]
        rfl
      · have hafter := hrest t after htoken
        rw [htoken'] at hafter
        rw [tokens_of_token htoken ht, tokens_of_token htoken' ht, ih t after htoken ht hafter]
        rfl

end Cursor

end StackScript
