import StackScript.Proofs.Relocation
/-!
# A source on the line after another one

Of two sources with a line feed between them, the tokens are those of the first source, without its
end, and then those of the second one, further down by the lines of the first
(`Cursor.exists_tokens_followedBy`).  The first source must be readable to its end, and it must not
end inside a text, which would go on in the second one.
-/

namespace StackScript

namespace Location

def lower (lines : Nat) (l : Location) : Location := { l with line := l.line + lines }

theorem after_lower (lines : Nat) (l : Location) (b : UInt8) :
    (l.lower lines).after b = (l.after b).lower lines := by
  unfold after
  split
  · simp only [lower, Nat.add_right_comm]
  · rfl

theorem afterAll_lower (lines : Nat) (l : Location) (bs : List UInt8) :
    (l.lower lines).afterAll bs = (l.afterAll bs).lower lines := by
  induction bs generalizing l with
  | nil => rfl
  | cons b bs ih => rw [afterAll_cons, afterAll_cons, after_lower, ih]

theorem after_lineFeed (l : Location) : l.after 10 = start.lower l.line := by
  simp only [after, if_true, lower, start, Nat.add_comm]

theorem line_afterAll (l : Location) (bs : List UInt8) :
    (l.afterAll bs).line = l.line + bs.count 10 := by
  induction bs generalizing l with
  | nil => rfl
  | cons b bs ih =>
    rw [afterAll_cons, ih]
    by_cases hb : b = 10
    · simp only [after, hb, if_true, List.count_cons_self]
      omega
    · rw [after, if_neg hb, List.count_cons_of_ne hb]

end Location

def Token.lower (lines : Nat) (t : Token) : Token := { t with location := t.location.lower lines }

def Cause.lower (lines : Nat) : Cause → Cause
  | .malformed problem location => .malformed problem (location.lower lines)
  | cause => cause

/-- Whether the lexeme is a text that nothing closes. -/
def Cut.isOpenText (cut : Cut) : Bool :=
  match cut.lexeme, cut.ending with
  | .text _, .source => true
  | _, _ => false

def Cut.followedBy (more : List UInt8) (cut : Cut) : Cut :=
  { cut with
    rest := cut.rest ++ more
    ending := if cut.ending = .source then .blank else cut.ending }

namespace Lexeme

theorem enclosed_append {opening closing : UInt8} {depth : Nat} {bs body after : List UInt8}
    (h : enclosed opening closing depth bs = some (body, after)) (more : List UInt8) :
    enclosed opening closing depth (bs ++ more) = some (body, after ++ more) := by
  induction bs generalizing depth body with
  | nil => cases h
  | cons b rest ih =>
    rw [List.cons_append]
    unfold enclosed at h ⊢
    split at h
    · rename_i hopening
      obtain ⟨⟨inner, tail⟩, hi, he⟩ := Option.map_eq_some_iff.mp h
      cases he
      rw [if_pos hopening, ih hi]
      rfl
    · rename_i hopening
      rw [if_neg hopening]
      split at h
      · rename_i hclosing
        rw [if_pos hclosing]
        cases depth with
        | zero =>
          cases h
          rfl
        | succ depth =>
          obtain ⟨⟨inner, tail⟩, hi, he⟩ := Option.map_eq_some_iff.mp h
          cases he
          dsimp only
          rw [ih hi]
          rfl
      · rename_i hclosing
        obtain ⟨⟨inner, tail⟩, hi, he⟩ := Option.map_eq_some_iff.mp h
        cases he
        rw [if_neg hclosing, ih hi]
        rfl

theorem textBody_append {bs body after : List UInt8} (h : textBody bs = (body, some after))
    (more : List UInt8) : textBody (bs ++ more) = (body, some (after ++ more)) := by
  fun_induction textBody bs generalizing body with
  | case1 => cases h
  | case2 =>
    cases h
    cases more <;> rfl
  | case3 b hb => cases h
  | case4 c rest =>
    cases h
    rfl
  | case5 c rest inner tail hi hne ih =>
    cases h
    simp only [List.cons_append, textBody, if_neg hne, if_true, ih hi]
  | case6 b c rest hq hb inner tail hi ih =>
    cases h
    simp only [List.cons_append, textBody, if_neg hq, if_neg hb] at ih ⊢
    rw [ih hi]

private theorem takeWhile_append_cons {p : UInt8 → Bool} {b : UInt8} (hb : p b = false)
    (bs more : List UInt8) : (bs ++ b :: more).takeWhile p = bs.takeWhile p := by
  induction bs with
  | nil => simp [hb]
  | cons c bs ih => simp only [List.cons_append, List.takeWhile_cons, ih]

private theorem dropWhile_append_cons {p : UInt8 → Bool} {b : UInt8} (hb : p b = false)
    (bs more : List UInt8) : (bs ++ b :: more).dropWhile p = bs.dropWhile p ++ b :: more := by
  induction bs with
  | nil => simp [hb]
  | cons c bs ih =>
    simp only [List.cons_append, List.dropWhile_cons, ih]
    split <;> rfl

theorem cutWord_append (form : List UInt8 → Lexeme) (first : UInt8) (bs more : List UInt8) :
    cutWord form first (bs ++ 10 :: more) =
      (cutWord form first bs).followedBy (10 :: more) := by
  have htake := takeWhile_append_cons (p := (!isBlank ·)) (b := 10) rfl bs more
  have hdrop := dropWhile_append_cons (p := (!isBlank ·)) (b := 10) rfl bs more
  simp only [cutWord, htake, hdrop, Cut.followedBy]
  by_cases hafter : (bs.dropWhile (!isBlank ·)).isEmpty <;> simp [hafter]

theorem cut_append {bs : List UInt8} (hbs : bs ≠ [])
    (hclosed : ∀ mark, (cut bs).lexeme ≠ .unclosed mark) (htext : ¬ (cut bs).isOpenText)
    (more : List UInt8) : cut (bs ++ 10 :: more) = (cut bs).followedBy (10 :: more) := by
  have henclosed (form : List UInt8 → Lexeme) (opening closing : UInt8) (rest : List UInt8)
      (h : ∀ mark, (cutEnclosed form opening closing rest).lexeme ≠ .unclosed mark) :
      cutEnclosed form opening closing (rest ++ 10 :: more) =
        (cutEnclosed form opening closing rest).followedBy (10 :: more) := by
    unfold cutEnclosed at h ⊢
    cases hbody : enclosed opening closing 0 rest with
    | none =>
      rw [hbody] at h
      exact absurd rfl (h closing)
    | some found =>
      rw [enclosed_append hbody]
      rfl
  cases bs with
  | nil => exact absurd rfl hbs
  | cons b rest =>
    rw [cut] at hclosed htext
    rw [List.cons_append, cut, cut]
    split
    · rename_i hb
      rw [if_pos hb] at hclosed
      exact henclosed _ _ _ rest hclosed
    · rename_i hb
      rw [if_neg hb] at hclosed htext
      split
      · rename_i hb
        rw [if_pos hb] at hclosed
        exact henclosed _ _ _ rest hclosed
      · rename_i hb
        rw [if_neg hb] at hclosed htext
        split
        · rename_i hb
          rw [if_pos hb] at htext
          unfold cutText at htext ⊢
          rcases hbody : textBody rest with ⟨body, after⟩
          cases after with
          | none =>
            rw [hbody] at htext
            exact absurd rfl htext
          | some after =>
            rw [textBody_append hbody]
            rfl
        · split
          · exact cutWord_append _ _ _ _
          · split
            · exact cutWord_append _ _ _ _
            · rfl

end Lexeme

namespace Cursor

def lower (lines : Nat) (c : Cursor) : Cursor := { c with location := c.location.lower lines }

theorem tokens_lower (lines : Nat) (c : Cursor) :
    (c.lower lines).tokens =
      (c.tokens.1.map (Token.lower lines), c.tokens.2.map (Cause.lower lines)) :=
  tokens_relocate ⟨rfl, rfl, c.location.afterAll_lower lines⟩

/-- The cursor with more bytes behind its source. -/
def followedBy (more : List UInt8) (c : Cursor) : Cursor :=
  { c with source := { c.source with bytes := c.source.bytes ++ more } }

theorem pending_followedBy (more : List UInt8) (c : Cursor) :
    (c.followedBy more).pending = c.pending ++ more :=
  (List.append_assoc _ _ _).symm

/-- The last token of the source is a text that nothing closes. -/
inductive EndsInText : Cursor → Prop
  | here {c : Cursor} (h : c.lexeme.isOpenText) : EndsInText c
  | later {c after : Cursor} {t : Token} (htoken : c.token = (.ok t, after))
      (ht : t.form ≠ .endOfInput) (h : EndsInText after) : EndsInText c

variable {c after : Cursor} {t : Token}

theorem endsInText_iff_of_token (h : c.token = (.ok t, after)) (ht : t.form ≠ .endOfInput) :
    c.EndsInText ↔ c.lexeme.isOpenText ∨ after.EndsInText := by
  constructor
  · rintro (hopen | ⟨htoken, -, hafter⟩)
    · exact .inl hopen
    · cases h.symm.trans htoken
      exact .inr hafter
  · rintro (hopen | hafter)
    · exact .here hopen
    · exact .later h ht hafter

theorem endsInText_iff_of_end (h : c.token = (.ok t, after)) (ht : t.form = .endOfInput) :
    c.EndsInText ↔ c.lexeme.isOpenText := by
  constructor
  · rintro (hopen | ⟨htoken, hne, -⟩)
    · exact hopen
    · cases h.symm.trans htoken
      exact absurd ht hne
  · exact .here

theorem afterAll_pending_of_token (h : c.token = (.ok t, after)) :
    after.location.afterAll after.pending = c.location.afterAll c.pending := by
  obtain ⟨rfl, -⟩ := skip_of_token h
  rw [pending_skip, location_skip, ← Location.afterAll_append, lexeme,
    Lexeme.used_append_rest_cut, tokenStart, ← Location.afterAll_append,
    List.takeWhile_append_dropWhile]

theorem tokenStart_followedBy (h : c.pending.dropWhile isBlank ≠ []) (more : List UInt8) :
    (c.followedBy more).tokenStart = c.tokenStart := by
  have hlength := congrArg List.length
    (List.takeWhile_append_dropWhile (p := isBlank) (l := c.pending))
  have hpos := List.length_pos_iff.mpr h
  rw [List.length_append] at hlength
  rw [tokenStart, pending_followedBy, List.takeWhile_append, if_neg (by omega)]
  rfl

theorem exists_token_followedBy (h : c.token = (.ok t, after)) (ht : t.form ≠ .endOfInput)
    (hfailure : c.source.failure = none) (htext : ¬ c.lexeme.isOpenText) (more : List UInt8) :
    ∃ after', (c.followedBy (10 :: more)).token = (.ok t, after') ∧
      after'.tokens = (after.followedBy (10 :: more)).tokens := by
  obtain ⟨hafter, hform⟩ := skip_of_token h
  have hbytes : c.pending.dropWhile isBlank ≠ [] :=
    mt (dropWhile_isBlank_eq_nil_iff h).mp ht
  have hclosed (mark : UInt8) : c.lexeme.lexeme ≠ .unclosed mark := by
    intro hmark
    rw [hmark] at hform
    cases hform
  have hlexeme : (c.followedBy (10 :: more)).lexeme = c.lexeme.followedBy (10 :: more) := by
    rw [lexeme, pending_followedBy, List.dropWhile_append, if_neg (by simpa using hbytes)]
    exact Lexeme.cut_append hbytes hclosed htext more
  have hstart := tokenStart_followedBy hbytes (10 :: more)
  have hread : (c.followedBy (10 :: more)).token =
      (.ok ⟨_, t.form⟩, (c.followedBy (10 :: more)).skip (c.followedBy (10 :: more)).lexeme) :=
    token_of_form hfailure (by rw [hlexeme]; exact hform)
  rw [hstart, ← location_of_token h] at hread
  refine ⟨_, hread, tokens_congr (token_congr_pending ?_ ?_ ?_)⟩
  · rw [pending_skip, pending_followedBy, hafter, pending_skip, hlexeme]
    rfl
  · rw [location_skip, hstart, hlexeme, hafter]
    exact (c.location_skip c.lexeme).symm
  · rw [failure_skip, hafter]
    exact (c.failure_skip c.lexeme).symm

theorem tokenStart_followedBy_of_blank (h : c.pending.dropWhile isBlank = []) (more : List UInt8) :
    (c.followedBy more).tokenStart =
      (c.location.afterAll c.pending).afterAll (more.takeWhile isBlank) := by
  have htake : c.pending.takeWhile isBlank = c.pending := by
    have hall := List.takeWhile_append_dropWhile (p := isBlank) (l := c.pending)
    rwa [h, List.append_nil] at hall
  rw [tokenStart, pending_followedBy, List.takeWhile_append, if_pos (by rw [htake]),
    Location.afterAll_append]
  rfl

theorem lexeme_followedBy_of_blank (h : c.pending.dropWhile isBlank = []) (more : List UInt8) :
    (c.followedBy more).lexeme = Lexeme.cut (more.dropWhile isBlank) := by
  rw [lexeme, pending_followedBy, List.dropWhile_append, if_pos (by rw [h]; rfl)]

/-- Behind the last token of a source, the bytes on the next line are read as if they were a source
of their own, at their place. -/
theorem tokens_followedBy_of_end (h : c.token = (.ok t, after)) (ht : t.form = .endOfInput)
    (hfailure : c.source.failure = none) (more : List UInt8) :
    (c.followedBy (10 :: more)).tokens =
      ((ofSource (.ofBytes more)).lower (c.location.afterAll c.pending).line).tokens := by
  have hblank : c.pending.dropWhile isBlank = [] := (dropWhile_isBlank_eq_nil_iff h).mpr ht
  refine tokens_congr (token_congr (lexeme_followedBy_of_blank hblank _) ?_ hfailure)
  rw [tokenStart_followedBy_of_blank hblank, List.takeWhile_cons_of_pos rfl, Location.afterAll_cons,
    Location.after_lineFeed]
  rfl

/-- Of two sources with a line feed between them, the tokens are those of the first one without its
end, and then those of the second one, further down by the lines of the first one. -/
theorem exists_tokens_followedBy (hfailure : c.source.failure = none) (hread : c.tokens.2 = none)
    (htext : ¬ c.EndsInText) (more : List UInt8) :
    ∃ ts last, last.form = .endOfInput ∧ c.tokens.1 = ts ++ [last] ∧
      (c.followedBy (10 :: more)).tokens =
        (ts ++ ((ofSource (.ofBytes more)).lower (c.location.afterAll c.pending).line).tokens.1,
          ((ofSource (.ofBytes more)).lower (c.location.afterAll c.pending).line).tokens.2) := by
  induction c using token_induction with
  | step c ih =>
    rcases htoken : c.token with ⟨result, after⟩
    cases result with
    | error cause =>
      rw [tokens_of_error htoken] at hread
      cases hread
    | ok t =>
      by_cases ht : t.form = .endOfInput
      · refine ⟨[], t, ht, ?_, tokens_followedBy_of_end htoken ht hfailure more⟩
        rw [tokens_of_end htoken ht]
        rfl
      · rw [tokens_of_token htoken ht] at hread ⊢
        rw [endsInText_iff_of_token htoken ht] at htext
        have hafter : after.source.failure = none := by
          rw [(skip_of_token htoken).1, failure_skip, hfailure]
        obtain ⟨ts, last, hlast, htokens, hjoined⟩ :=
          ih t after htoken ht hafter hread (fun hopen => htext (.inr hopen))
        obtain ⟨after', htoken', htokens'⟩ :=
          exists_token_followedBy htoken ht hfailure (fun hopen => htext (.inl hopen)) more
        refine ⟨t :: ts, last, hlast, congrArg (t :: ·) htokens, ?_⟩
        rw [tokens_of_token htoken' ht, htokens', hjoined, afterAll_pending_of_token htoken]
        rfl

end Cursor

end StackScript
