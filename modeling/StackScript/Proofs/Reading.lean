import StackScript.Source.Token
/-!
# Reading tokens

Every token but the end of the source takes at least one byte, so the number of bytes bounds the
number of tokens.  The list of the tokens at a cursor is then given by the first of them and the
list of those behind it, without any bound.
-/

namespace StackScript

theorem Lexeme.used_cut_ne_nil {bs : List UInt8} (h : bs ≠ []) : (cut bs).used ≠ [] := by
  fun_cases cut bs with
  | case1 => exact absurd rfl h
  | case2 rest =>
    unfold cutEnclosed
    split <;> exact List.cons_ne_nil _ _
  | case3 rest =>
    unfold cutEnclosed
    split <;> exact List.cons_ne_nil _ _
  | case4 rest =>
    unfold cutText
    split <;> exact List.cons_ne_nil _ _
  | case5 rest => exact List.cons_ne_nil _ _
  | case6 b rest => exact List.cons_ne_nil _ _
  | case7 b rest => exact List.cons_ne_nil _ _

theorem Lexeme.length_rest_cut_lt {bs : List UInt8} (h : bs ≠ []) :
    (cut bs).rest.length < bs.length := by
  have hlength := congrArg List.length (used_append_rest_cut bs)
  have hused := List.length_pos_iff.mpr (used_cut_ne_nil h)
  rw [List.length_append] at hlength
  omega

theorem Lexeme.eq_nil_of_form_cut {bs : List UInt8} (h : (cut bs).lexeme.form = .ok .endOfInput) :
    bs = [] := by
  revert h
  fun_cases cut bs with
  | case1 => exact fun _ => rfl
  | case2 rest =>
    unfold cutEnclosed
    split <;> intro h <;> cases h
  | case3 rest =>
    unfold cutEnclosed
    split <;> intro h <;> cases h
  | case4 rest =>
    unfold cutText
    split <;> intro h <;> cases h
  | case5 rest =>
    intro h
    cases h
  | case6 b rest =>
    intro h
    cases h
  | case7 b rest =>
    intro h
    cases h

namespace Cursor

variable {c after : Cursor} {t : Token}

theorem pending_skip (c : Cursor) (cut : Cut) : (c.skip cut).pending = cut.rest := by
  unfold skip
  dsimp only
  split
  · rename_i hrest
    exact hrest.symm
  · rfl

theorem location_skip (c : Cursor) (cut : Cut) :
    (c.skip cut).location = c.tokenStart.afterAll cut.used := by
  unfold skip
  dsimp only
  split <;> rfl

theorem failure_skip (c : Cursor) (cut : Cut) :
    (c.skip cut).source.failure = c.source.failure := by
  unfold skip
  dsimp only
  split <;> rfl

theorem skip_of_token {c after : Cursor} {t : Token} (h : c.token = (.ok t, after)) :
    after = c.skip c.lexeme ∧ c.lexeme.lexeme.form = .ok t.form := by
  unfold token at h
  dsimp only at h
  split at h
  · cases h
  · split at h
    · rename_i form hform
      cases h
      exact ⟨rfl, hform⟩
    · cases h

theorem location_of_token (h : c.token = (.ok t, after)) : t.location = c.tokenStart := by
  unfold token at h
  dsimp only at h
  split at h
  · cases h
  · split at h
    · cases h
      rfl
    · cases h

theorem token_of_form {form : Form} (hfailure : c.source.failure = none)
    (hform : c.lexeme.lexeme.form = .ok form) :
    c.token = (.ok ⟨c.tokenStart, form⟩, c.skip c.lexeme) := by
  simp only [token, hfailure, hform]
  split
  · contradiction
  · rfl

theorem token_of_problem {problem : Problem} (hfailure : c.source.failure = none)
    (hform : c.lexeme.lexeme.form = .error problem) :
    c.token =
      (.error (.malformed problem (c.skip c.lexeme).location), c.skip c.lexeme) := by
  simp only [token, hfailure, hform]
  split
  · contradiction
  · rfl

theorem dropWhile_isBlank_eq_nil_iff (h : c.token = (.ok t, after)) :
    c.pending.dropWhile isBlank = [] ↔ t.form = .endOfInput := by
  obtain ⟨-, hform⟩ := skip_of_token h
  rw [lexeme] at hform
  constructor
  · intro hnil
    rw [hnil] at hform
    exact (Except.ok.inj hform).symm
  · intro ht
    rw [ht] at hform
    exact Lexeme.eq_nil_of_form_cut hform

theorem length_pending_lt_of_token {c after : Cursor} {t : Token} (h : c.token = (.ok t, after))
    (ht : t.form ≠ .endOfInput) : after.pending.length < c.pending.length := by
  obtain ⟨rfl, hform⟩ := skip_of_token h
  rw [pending_skip]
  have hbytes : c.pending.dropWhile isBlank ≠ [] := by
    intro hnil
    rw [lexeme, hnil] at hform
    exact ht (Except.ok.inj hform).symm
  calc c.lexeme.rest.length
      < (c.pending.dropWhile isBlank).length := Lexeme.length_rest_cut_lt hbytes
    _ ≤ c.pending.length := (List.dropWhile_suffix isBlank).length_le

private theorem tokensUpTo_of_le {few many : Nat} {c : Cursor} (hc : c.pending.length < few)
    (hle : few ≤ many) : c.tokensUpTo many = c.tokensUpTo few := by
  induction few generalizing many c with
  | zero => exact absurd hc (Nat.not_lt_zero _)
  | succ few ih =>
    obtain ⟨many, rfl⟩ := Nat.exists_eq_add_of_le' (Nat.one_le_of_lt hle)
    simp only [tokensUpTo]
    rcases htoken : c.token with ⟨result, after⟩
    cases result with
    | error cause => rfl
    | ok t =>
      dsimp only
      split
      · rfl
      · rename_i ht
        have hshorter := length_pending_lt_of_token htoken ht
        rw [ih (by omega) (by omega)]

theorem tokensUpTo_eq_tokens {limit : Nat} {c : Cursor} (h : c.pending.length < limit) :
    c.tokensUpTo limit = c.tokens :=
  tokensUpTo_of_le (Nat.lt_succ_self _) h

theorem tokens_of_error {c after : Cursor} {cause : Cause} (h : c.token = (.error cause, after)) :
    c.tokens = ([], some cause) := by
  simp only [tokens, tokensUpTo, h]

theorem tokens_of_end {c after : Cursor} {t : Token} (h : c.token = (.ok t, after))
    (ht : t.form = .endOfInput) : c.tokens = ([t], none) := by
  simp only [tokens, tokensUpTo, h, if_pos ht]

theorem tokens_of_token {c after : Cursor} {t : Token} (h : c.token = (.ok t, after))
    (ht : t.form ≠ .endOfInput) : c.tokens = (t :: after.tokens.1, after.tokens.2) := by
  have hafter := tokensUpTo_eq_tokens (length_pending_lt_of_token h ht)
  simp only [tokens, tokensUpTo, h, if_neg ht] at hafter ⊢
  rw [hafter]

theorem token_congr {c c' : Cursor} (hlexeme : c.lexeme = c'.lexeme)
    (hstart : c.tokenStart = c'.tokenStart) (hfailure : c.source.failure = c'.source.failure) :
    c.token = c'.token := by
  have hskip (cut : Cut) : c.skip cut = c'.skip cut := by
    simp only [skip, hstart, hfailure]
  simp only [token, hskip, hlexeme, hstart, hfailure]

theorem token_congr_pending {c c' : Cursor} (hpending : c.pending = c'.pending)
    (hlocation : c.location = c'.location) (hfailure : c.source.failure = c'.source.failure) :
    c.token = c'.token := by
  refine token_congr ?_ ?_ hfailure
  · rw [lexeme, lexeme, hpending]
  · rw [tokenStart, tokenStart, hlocation, hpending]

theorem tokens_congr {c c' : Cursor} (h : c.token = c'.token) : c.tokens = c'.tokens := by
  rcases htoken : c.token with ⟨result, after⟩
  have htoken' : c'.token = (result, after) := h ▸ htoken
  cases result with
  | error cause => rw [tokens_of_error htoken, tokens_of_error htoken']
  | ok t =>
    by_cases ht : t.form = .endOfInput
    · rw [tokens_of_end htoken ht, tokens_of_end htoken' ht]
    · rw [tokens_of_token htoken ht, tokens_of_token htoken' ht]

/-- A property of cursors holds everywhere if it holds at each cursor as soon as it holds behind
the first token there. -/
theorem token_induction {motive : Cursor → Prop}
    (step : ∀ c, (∀ t after, c.token = (.ok t, after) → t.form ≠ .endOfInput → motive after) →
      motive c) (c : Cursor) : motive c :=
  step c fun _ after htoken ht =>
    have := length_pending_lt_of_token htoken ht
    token_induction step after
termination_by c.pending.length

theorem exists_malformed_of_token {cause : Cause} (hfailure : c.source.failure = none)
    (h : c.token = (.error cause, after)) :
    ∃ problem location, cause = .malformed problem location := by
  unfold token at h
  dsimp only at h
  split at h
  · rename_i hsome
    rw [hfailure] at hsome
    cases hsome
  · split at h <;> cases h
    exact ⟨_, _, rfl⟩

theorem exists_malformed {c : Cursor} (hfailure : c.source.failure = none) {cause : Cause}
    (h : c.tokens.2 = some cause) : ∃ problem location, cause = .malformed problem location := by
  induction c using token_induction with
  | step c ih =>
    rcases htoken : c.token with ⟨result, after⟩
    cases result with
    | error found =>
      rw [tokens_of_error htoken] at h
      cases h
      exact exists_malformed_of_token hfailure htoken
    | ok t =>
      by_cases ht : t.form = .endOfInput
      · rw [tokens_of_end htoken ht] at h
        cases h
      · rw [tokens_of_token htoken ht] at h
        refine ih t after htoken ht ?_ h
        rw [(skip_of_token htoken).1, failure_skip, hfailure]

end Cursor

namespace Source

theorem tokens_eq_ok_iff {s : Source} {tokens : List Token} :
    s.tokens = .ok tokens ↔ (Cursor.ofSource s).tokens = (tokens, none) := by
  unfold Source.tokens
  split <;> rename_i heq <;> simp [heq]

theorem tokens_eq_error_iff {s : Source} {cause : Cause} :
    s.tokens = .error cause ↔ (Cursor.ofSource s).tokens.2 = some cause := by
  unfold Source.tokens
  split <;> rename_i heq <;> simp [heq]

end Source

end StackScript
