import StackScript.Proofs.TokenRequest
/-!
# Where a source is malformed

A problem with a source comes with a place.  A quotation or a comment that nothing closes is missed
at the end of the source.  A byte that starts no token has been taken when it is reported, so that
the place is the one behind it, one column to the right of its own.
-/

namespace StackScript

namespace Lexeme

theorem Encloses.isBlank_eq_false {opening closing : UInt8} (h : Encloses opening closing) :
    isBlank opening = false := by
  simp only [Encloses, List.mem_cons, List.not_mem_nil, or_false, Prod.mk.injEq] at h
  obtain ⟨rfl, -⟩ | ⟨rfl, -⟩ := h <;> rfl

theorem cut_of_unclosed {opening closing : UInt8} (hmarks : Encloses opening closing)
    {rest : List UInt8}
    (hopen : ∀ body after, Balanced opening closing body → rest ≠ body ++ closing :: after) :
    cut (opening :: rest) = ⟨.unclosed closing, opening :: rest, [], .source⟩ := by
  have hnone : enclosed opening closing 0 rest = none := by
    cases hfound : enclosed opening closing 0 rest with
    | none => rfl
    | some found =>
      have hbody := balanced_of_enclosed hmarks.ne hfound
      exact absurd (append_of_enclosed hfound).symm (hopen _ _ hbody)
  simp only [Encloses, List.mem_cons, List.not_mem_nil, or_false, Prod.mk.injEq] at hmarks
  obtain ⟨rfl, rfl⟩ | ⟨rfl, rfl⟩ := hmarks
  · change cutEnclosed .quotation Mark.openBracket Mark.closeBracket rest = _
    rw [cutEnclosed, hnone]
  · change cutEnclosed .comment Mark.openParenthesis Mark.closeParenthesis rest = _
    rw [cutEnclosed, hnone]

end Lexeme

namespace Cursor

variable {c : Cursor} {l : Location}

theorem lexeme_of_pending (blanks : List UInt8) {rest : List UInt8} {b : UInt8}
    (hpending : c.pending = blanks ++ b :: rest) (hblanks : ∀ a ∈ blanks, isBlank a = true)
    (hb : isBlank b = false) :
    c.lexeme = Lexeme.cut (b :: rest) ∧ c.tokenStart = c.location.afterAll blanks := by
  have hstop : ¬ isBlank b = true := by simp [hb]
  constructor
  · rw [lexeme, hpending, List.dropWhile_append_of_pos hblanks, List.dropWhile_cons_of_neg hstop]
  · rw [tokenStart, hpending, List.takeWhile_append_of_pos hblanks,
      List.takeWhile_cons_of_neg hstop, List.append_nil]

theorem token_eq_unexpected_iff {b : UInt8} :
    c.token.1 = .error (.malformed (.unexpected b) l) ↔
      ∃ blanks rest, c.pending = blanks ++ b :: rest ∧ (∀ a ∈ blanks, isBlank a = true) ∧
        isBlank b = false ∧ (isVisible b = false ∨ b = Mark.closeBracket) ∧
        l = c.location.afterAll (blanks ++ [b]) := by
  constructor
  · intro h
    have hfinds := c.finds_token
    rw [h] at hfinds
    generalize c.taken = taken at hfinds
    generalize c.forth.source.failure = left at hfinds
    cases hfinds with
    | @unexpected blanks rest b hpending hblanks hb hstart =>
      exact ⟨blanks, rest, hpending, hblanks, hb, hstart, rfl⟩
  · rintro ⟨blanks, rest, hpending, hblanks, hb, hstart, rfl⟩
    obtain ⟨hlexeme, hstarts⟩ := lexeme_of_pending blanks hpending hblanks hb
    rw [Lexeme.cut_of_startsNothing hstart] at hlexeme
    have hplace : (c.skip c.lexeme).location = c.location.afterAll (blanks ++ [b]) := by
      rw [location_skip, hstarts, hlexeme, Location.afterAll_append]
    rw [← hplace]
    simp only [token, hlexeme, Lexeme.form]

theorem token_eq_unclosed_iff {mark : UInt8} :
    c.token.1 = .error (.malformed (.unclosed mark) l) ↔
      (∃ blanks opening rest, c.pending = blanks ++ opening :: rest ∧
        (∀ a ∈ blanks, isBlank a = true) ∧ Lexeme.Encloses opening mark ∧
        ∀ body after, Balanced opening mark body → rest ≠ body ++ mark :: after) ∧
      c.source.failure = none ∧ l = c.location.afterAll c.pending := by
  constructor
  · intro h
    have hfinds := c.finds_token
    rw [h] at hfinds
    generalize c.taken = taken at hfinds
    generalize c.forth.source.failure = left at hfinds
    cases hfinds with
    | @unclosed blanks rest opening closing hpending hblanks hmarks hopen hfailure =>
      exact ⟨⟨blanks, opening, rest, hpending, hblanks, hmarks, hopen⟩, hfailure, rfl⟩
  · rintro ⟨⟨blanks, opening, rest, hpending, hblanks, hmarks, hopen⟩, hfailure, rfl⟩
    obtain ⟨hlexeme, hstarts⟩ := lexeme_of_pending blanks hpending hblanks hmarks.isBlank_eq_false
    rw [Lexeme.cut_of_unclosed hmarks hopen] at hlexeme
    have hplace : (c.skip c.lexeme).location = c.location.afterAll c.pending := by
      rw [location_skip, hstarts, hlexeme, hpending, Location.afterAll_append]
    have hform : c.lexeme.lexeme.form = .error (.unclosed mark) := by
      rw [hlexeme]
      rfl
    rw [token_of_problem hfailure hform, hplace]

end Cursor

namespace Location

theorem behind_append_singleton (before : List UInt8) {b : UInt8} (hb : isBlank b = false) :
    behind (before ++ [b]) = ⟨(behind before).line, (behind before).column + 1⟩ := by
  have hline : b ≠ 10 := by
    rintro rfl
    cases hb
  rw [behind_append, afterAll_cons, afterAll_nil, after, if_neg hline]

end Location

/-- After any number of requests, a request finds an unexpected byte exactly when such a byte stands
first behind the blanks, and names the place one column to the right of it.  It misses a mark exactly
when an opening mark stands there that nothing closes, and names the end of the source. -/
theorem Source.problems_placed (s : Source) (k : Nat) (l : Location) :
    (∀ b, s.answer k = .error (.malformed (.unexpected b) l) ↔
      ∃ blanks rest, s.bytes = s.takenUpTo k ++ (blanks ++ b :: rest) ∧
        (∀ a ∈ blanks, isBlank a = true) ∧ isBlank b = false ∧
        (isVisible b = false ∨ b = Mark.closeBracket) ∧
        let place := Location.behind (s.takenUpTo k ++ blanks)
        l = ⟨place.line, place.column + 1⟩) ∧
    ∀ mark, s.answer k = .error (.malformed (.unclosed mark) l) ↔
      (∃ blanks opening rest, s.bytes = s.takenUpTo k ++ (blanks ++ opening :: rest) ∧
        (∀ a ∈ blanks, isBlank a = true) ∧ Lexeme.Encloses opening mark ∧
        ∀ body after, Balanced opening mark body → rest ≠ body ++ mark :: after) ∧
      (s.after k).source.failure = none ∧ l = .behind s.bytes := by
  obtain ⟨hbytes, hlocation⟩ := s.takenUpTo_append_pending k
  have hsplit (rest : List UInt8) :
      s.bytes = s.takenUpTo k ++ rest ↔ (s.after k).pending = rest := by
    rw [← hbytes, List.append_cancel_left_eq]
  constructor
  · intro b
    rw [answer, Cursor.token_eq_unexpected_iff]
    have hplace (blanks : List UInt8) (hb : isBlank b = false) :
        Location.behind (s.takenUpTo k ++ (blanks ++ [b])) =
          ⟨(Location.behind (s.takenUpTo k ++ blanks)).line,
            (Location.behind (s.takenUpTo k ++ blanks)).column + 1⟩ := by
      rw [← List.append_assoc, Location.behind_append_singleton _ hb]
    simp only [hsplit, hlocation, ← Location.behind_append]
    refine exists_congr fun blanks => exists_congr fun rest => ?_
    constructor
    · rintro ⟨hpending, hblanks, hb, hstart, rfl⟩
      exact ⟨hpending, hblanks, hb, hstart, hplace blanks hb⟩
    · rintro ⟨hpending, hblanks, hb, hstart, rfl⟩
      exact ⟨hpending, hblanks, hb, hstart, (hplace blanks hb).symm⟩
  · intro mark
    rw [answer, Cursor.token_eq_unclosed_iff, hlocation, ← Location.behind_append, hbytes]
    simp only [hsplit]

/-- A bracket that closes nothing stands at the second column and is reported at the third. -/
example : (Source.ofText " ] [b").answer 0 =
    .error (.malformed (.unexpected Mark.closeBracket) ⟨1, 3⟩) := rfl

end StackScript
