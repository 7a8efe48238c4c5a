import Mathlib.Data.List.TakeWhile
import StackScript.Proofs.JoinedSource
/-!
# Reading tokens from a stream

A token takes from its source the blanks before it, its own bytes, and at most one byte more: the
blank that ends a call or a text word, which is kept for the next token
(`Cursor.ahead_append_scanned`, `Cursor.ahead_of_token`).  So a token that ends before its source
does is read in the same way when the source goes on (`Cursor.token_followedBy`).
-/

namespace StackScript

namespace Lexeme

variable {bs : List UInt8}

private theorem ending_cutWord_cases (form : List UInt8 → Lexeme) (first : UInt8)
    (rest : List UInt8) :
    ((cutWord form first rest).ending = .blank ∧ ∃ b after,
      (cutWord form first rest).rest = b :: after ∧ isBlank b) ∨
    (cutWord form first rest).ending = .source ∧ (cutWord form first rest).rest = [] := by
  simp only [cutWord]
  cases hafter : rest.dropWhile (!isBlank ·) with
  | nil => exact .inr ⟨rfl, rfl⟩
  | cons b after =>
    have hhead := List.head?_dropWhile_not (!isBlank ·) rest
    rw [hafter] at hhead
    exact .inl ⟨rfl, b, after, rfl, by simpa using hhead⟩

theorem ending_cut_cases (bs : List UInt8) :
    (cut bs).ending = .complete ∨
    ((cut bs).ending = .blank ∧ ∃ b rest, (cut bs).rest = b :: rest ∧ isBlank b ∧
      ∃ word, (cut bs).lexeme = .call word ∨ (cut bs).lexeme = .textWord word) ∨
    (cut bs).ending = .source ∧ (cut bs).rest = [] := by
  have henclosed (form : List UInt8 → Lexeme) (opening closing : UInt8) (rest : List UInt8) :
      (cutEnclosed form opening closing rest).ending = .complete ∨
        (cutEnclosed form opening closing rest).ending = .source ∧
          (cutEnclosed form opening closing rest).rest = [] := by
    unfold cutEnclosed
    split
    · exact .inl rfl
    · exact .inr ⟨rfl, rfl⟩
  fun_cases cut bs with
  | case1 => exact .inr (.inr ⟨rfl, rfl⟩)
  | case2 rest => exact (henclosed _ _ _ rest).imp_right .inr
  | case3 rest => exact (henclosed _ _ _ rest).imp_right .inr
  | case4 rest =>
    unfold cutText
    split
    · exact .inl rfl
    · exact .inr (.inr ⟨rfl, rfl⟩)
  | case5 rest =>
    refine .inr ((ending_cutWord_cases .textWord Mark.star rest).imp_left ?_)
    rintro ⟨hending, b, after, hrest, hb⟩
    exact ⟨hending, b, after, hrest, hb, _, .inr rfl⟩
  | case6 b rest =>
    refine .inr ((ending_cutWord_cases (fun w => .call (b :: w)) b rest).imp_left ?_)
    rintro ⟨hending, c, after, hrest, hc⟩
    exact ⟨hending, c, after, hrest, hc, _, .inl rfl⟩
  | case7 b rest => exact .inl rfl

private theorem cutWord_append_of_ending {form : List UInt8 → Lexeme} {first : UInt8}
    {rest : List UInt8} (h : (cutWord form first rest).ending ≠ .source) (more : List UInt8) :
    cutWord form first (rest ++ more) =
      { cutWord form first rest with rest := (cutWord form first rest).rest ++ more } := by
  have hafter : rest.dropWhile (!isBlank ·) ≠ [] := by
    intro hnil
    exact h (by simp only [cutWord, hnil]; rfl)
  have hlength := congrArg List.length
    (List.takeWhile_append_dropWhile (p := (!isBlank ·)) (l := rest))
  have hpos := List.length_pos_iff.mpr hafter
  rw [List.length_append] at hlength
  simp only [cutWord, List.takeWhile_append, List.dropWhile_append]
  rw [if_neg (by omega), if_neg (by simpa using hafter)]
  simp [hafter]

private theorem cutEnclosed_append_of_ending {form : List UInt8 → Lexeme} {opening closing : UInt8}
    {rest : List UInt8} (h : (cutEnclosed form opening closing rest).ending ≠ .source)
    (more : List UInt8) :
    cutEnclosed form opening closing (rest ++ more) =
      { cutEnclosed form opening closing rest with
        rest := (cutEnclosed form opening closing rest).rest ++ more } := by
  unfold cutEnclosed at h ⊢
  cases hbody : enclosed opening closing 0 rest with
  | none =>
    rw [hbody] at h
    exact absurd rfl h
  | some found => rw [enclosed_append hbody]

theorem cut_append_of_ending (h : (cut bs).ending ≠ .source) (more : List UInt8) :
    cut (bs ++ more) = { cut bs with rest := (cut bs).rest ++ more } := by
  cases bs with
  | nil => exact absurd rfl h
  | cons b rest =>
    rw [cut] at h
    rw [List.cons_append, cut, cut]
    split
    · rename_i hb
      rw [if_pos hb] at h
      exact cutEnclosed_append_of_ending h more
    · rename_i hb
      rw [if_neg hb] at h
      split
      · rename_i hb
        rw [if_pos hb] at h
        exact cutEnclosed_append_of_ending h more
      · rename_i hb
        rw [if_neg hb] at h
        split
        · rename_i hb
          rw [if_pos hb] at h
          unfold cutText at h ⊢
          rcases hbody : textBody rest with ⟨body, after⟩
          rw [hbody] at h
          cases after with
          | none => exact absurd rfl h
          | some after => rw [textBody_append hbody]
        · rename_i hb
          rw [if_neg hb] at h
          split
          · rename_i hb
            rw [if_pos hb] at h
            exact cutWord_append_of_ending h more
          · rename_i hb
            rw [if_neg hb] at h
            split
            · rename_i hb
              rw [if_pos hb] at h
              exact cutWord_append_of_ending h more
            · rfl

theorem ending_cut_ne_source (hne : bs ≠ []) (hlast : ∀ b, bs.getLast? = some b → isBlank b)
    (hclosed : ∀ mark, (cut bs).lexeme ≠ .unclosed mark) (htext : ¬ (cut bs).isOpenText) :
    (cut bs).ending ≠ .source := by
  have hword (form : List UInt8 → Lexeme) {b : UInt8} {rest : List UInt8} (hb : ¬ isBlank b)
      (hlast : ∀ c, (b :: rest).getLast? = some c → isBlank c) :
      (cutWord form b rest).ending ≠ .source := by
    intro hsource
    have hnone : rest.dropWhile (!isBlank ·) = [] := by
      rcases ending_cutWord_cases form b rest with ⟨hblank, -⟩ | ⟨-, hrest⟩
      · rw [hblank] at hsource
        cases hsource
      · exact hrest
    rcases List.eq_nil_or_concat rest with rfl | ⟨init, c, rfl⟩
    · exact hb (hlast b rfl)
    · rw [List.concat_eq_append, ← List.cons_append] at hlast
      have hc := hlast c List.getLast?_concat
      have hall := List.dropWhile_eq_nil_iff.mp hnone c (by simp)
      rw [hc] at hall
      cases hall
  have henclosed {form : List UInt8 → Lexeme} {opening closing : UInt8} {rest : List UInt8}
      (hclosed : ∀ mark, (cutEnclosed form opening closing rest).lexeme ≠ .unclosed mark) :
      (cutEnclosed form opening closing rest).ending ≠ .source := by
    unfold cutEnclosed at hclosed ⊢
    cases hbody : enclosed opening closing 0 rest with
    | none =>
      rw [hbody] at hclosed
      exact absurd rfl (hclosed closing)
    | some found => simp
  revert hclosed htext hlast
  fun_cases cut bs with
  | case1 => exact absurd rfl hne
  | case2 rest => exact fun _ hclosed _ => henclosed hclosed
  | case3 rest => exact fun _ hclosed _ => henclosed hclosed
  | case4 rest =>
    intro _ _ htext
    unfold cutText at htext ⊢
    rcases hbody : textBody rest with ⟨body, after⟩
    rw [hbody] at htext
    cases after with
    | none => exact absurd rfl htext
    | some after => simp
  | case5 rest => exact fun hlast _ _ => hword _ (by decide) hlast
  | case6 b rest _ _ _ _ hvisible =>
    refine fun hlast _ _ => hword _ ?_ hlast
    intro hblank
    simp only [isBlank, Bool.or_eq_true, decide_eq_true_eq] at hblank
    rcases hblank with (rfl | rfl) | rfl <;> simp [isVisible] at hvisible
  | case7 b rest => exact fun _ _ _ => by simp

end Lexeme

namespace Cursor

variable {c after : Cursor} {t : Token}

theorem token_snd (hfailure : c.source.failure = none) : c.token.2 = c.skip c.lexeme := by
  unfold token
  dsimp only
  split
  · rename_i hsome
    rw [hfailure] at hsome
    cases hsome
  · split <;> rfl

/-- The bytes that reading a token takes off the source. -/
def scanned (c : Cursor) : List UInt8 :=
  c.source.bytes.take (c.source.bytes.length - c.token.2.source.bytes.length)

theorem pending_eq (hfailure : c.source.failure = none) :
    c.pending = (c.pending.takeWhile isBlank ++ c.lexeme.used ++ c.token.2.ahead.toList) ++
      c.token.2.source.bytes := by
  have hrest : c.lexeme.rest = c.token.2.ahead.toList ++ c.token.2.source.bytes := by
    rw [token_snd hfailure]
    exact (c.pending_skip c.lexeme).symm
  have hcut : c.lexeme.used ++ c.lexeme.rest = c.pending.dropWhile isBlank :=
    Lexeme.used_append_rest_cut _
  rw [List.append_assoc, List.append_assoc, ← hrest, hcut, List.takeWhile_append_dropWhile]

/-- Reading a token takes a first part of the source: the blanks before the token, the token and
what was looked at behind it, without what had been looked at before. -/
theorem ahead_append_scanned (hfailure : c.source.failure = none) :
    c.ahead.toList ++ c.scanned =
      c.pending.takeWhile isBlank ++ c.lexeme.used ++ c.token.2.ahead.toList ∧
    c.scanned ++ c.token.2.source.bytes = c.source.bytes := by
  have hpending := pending_eq hfailure
  generalize htaken : c.pending.takeWhile isBlank ++ c.lexeme.used ++ c.token.2.ahead.toList = taken
    at hpending ⊢
  have hle : c.ahead.toList.length ≤ taken.length := by
    cases hahead : c.ahead with
    | none => exact Nat.zero_le _
    | some b =>
      apply List.length_pos_iff.mpr
      rintro rfl
      rw [List.append_eq_nil_iff, List.append_eq_nil_iff] at htaken
      have hbytes : c.pending.dropWhile isBlank ≠ [] := by
        have hsplit := List.takeWhile_append_dropWhile (p := isBlank) (l := c.pending)
        rw [htaken.1.1, List.nil_append] at hsplit
        rw [hsplit, pending, hahead]
        exact List.cons_ne_nil _ _
      exact Lexeme.used_cut_ne_nil hbytes htaken.1.2
  obtain ⟨more, rfl⟩ : c.ahead.toList <+: taken := by
    have hprefix : taken <+: c.pending := by
      rw [hpending]
      exact List.prefix_append _ _
    exact List.prefix_of_prefix_length_le (List.prefix_append _ c.source.bytes) hprefix hle
  have hbytes : c.source.bytes = more ++ c.token.2.source.bytes := by
    rw [List.append_assoc] at hpending
    exact List.append_cancel_left hpending
  have hscanned : c.scanned = more := by
    have hlength : c.source.bytes.length - c.token.2.source.bytes.length = more.length := by
      rw [hbytes, List.length_append, Nat.add_sub_cancel]
    rw [scanned, hlength, hbytes, List.take_left]
  rw [hscanned]
  exact ⟨rfl, hbytes.symm⟩

/-- What was looked at behind a token is the blank that ends a call or a text word. -/
theorem ahead_of_token (hfailure : c.source.failure = none) {b : UInt8}
    (h : c.token.2.ahead = some b) :
    isBlank b ∧ ∃ word, c.lexeme.lexeme = .call word ∨ c.lexeme.lexeme = .textWord word := by
  rw [token_snd hfailure] at h
  unfold skip at h
  dsimp only at h
  split at h
  · rename_i found rest hending hrest
    cases h
    rcases Lexeme.ending_cut_cases (c.pending.dropWhile isBlank) with
      hcomplete | ⟨-, a, tail, htail, ha, hword⟩ | ⟨hsource, -⟩
    · rw [lexeme, hcomplete] at hending
      cases hending
    · rw [lexeme, htail] at hrest
      cases hrest
      exact ⟨ha, hword⟩
    · rw [lexeme, hsource] at hending
      cases hending
  · cases h

theorem dropWhile_isBlank_ne_nil (h : c.lexeme.ending ≠ .source) :
    c.pending.dropWhile isBlank ≠ [] := by
  intro hnil
  rw [lexeme, hnil] at h
  exact h rfl

theorem lexeme_followedBy (h : c.lexeme.ending ≠ .source) (more : List UInt8) :
    (c.followedBy more).lexeme = { c.lexeme with rest := c.lexeme.rest ++ more } := by
  have hbytes := dropWhile_isBlank_ne_nil h
  rw [lexeme, pending_followedBy, List.dropWhile_append, if_neg (by simpa using hbytes)]
  exact Lexeme.cut_append_of_ending h more

theorem skip_followedBy (h : c.lexeme.ending ≠ .source) (more : List UInt8) :
    (c.followedBy more).skip (c.followedBy more).lexeme = (c.skip c.lexeme).followedBy more := by
  have hbytes := dropWhile_isBlank_ne_nil h
  rw [lexeme_followedBy h]
  rcases Lexeme.ending_cut_cases (c.pending.dropWhile isBlank) with
    hending | ⟨hending, b, rest, hrest, -⟩ | ⟨hsource, -⟩
  · rw [← lexeme] at hending
    simp only [skip, hending, tokenStart_followedBy hbytes]
    rfl
  · rw [← lexeme] at hending hrest
    simp only [skip, hending, hrest, tokenStart_followedBy hbytes]
    rfl
  · exact absurd hsource h

/-- A token that ends before its source does is read in the same way when the source goes on. -/
theorem token_followedBy (hfailure : c.source.failure = none) (hending : c.lexeme.ending ≠ .source)
    (h : c.token = (.ok t, after)) (more : List UInt8) :
    (c.followedBy more).token = (.ok t, after.followedBy more) := by
  obtain ⟨hafter, hform⟩ := skip_of_token h
  have hbytes := dropWhile_isBlank_ne_nil hending
  have hlexeme : (c.followedBy more).lexeme.lexeme.form = .ok t.form := by
    rw [lexeme_followedBy hending]
    exact hform
  rw [token_of_form (c := c.followedBy more) hfailure hlexeme, skip_followedBy hending, ← hafter,
    tokenStart_followedBy hbytes, ← location_of_token h]

def EndsBlank (c : Cursor) : Prop :=
  ∀ b, c.pending.getLast? = some b → isBlank b

theorem EndsBlank.of_token (hc : c.EndsBlank) (h : c.token = (.ok t, after)) : after.EndsBlank := by
  obtain ⟨rfl, -⟩ := skip_of_token h
  intro b hb
  apply hc b
  rw [pending_skip] at hb
  rw [← List.takeWhile_append_dropWhile (p := isBlank) (l := c.pending),
    ← Lexeme.used_append_rest_cut (c.pending.dropWhile isBlank), List.getLast?_append,
    List.getLast?_append]
  rw [lexeme] at hb
  simp [hb]

theorem EndsBlank.ending_ne_source (hc : c.EndsBlank) (h : c.token = (.ok t, after))
    (ht : t.form ≠ .endOfInput) (htext : ¬ c.lexeme.isOpenText) : c.lexeme.ending ≠ .source := by
  obtain ⟨-, hform⟩ := skip_of_token h
  have hbytes : c.pending.dropWhile isBlank ≠ [] := mt (dropWhile_isBlank_eq_nil_iff h).mp ht
  apply Lexeme.ending_cut_ne_source hbytes _ _ htext
  · intro b hb
    apply hc b
    rw [← List.takeWhile_append_dropWhile (p := isBlank) (l := c.pending), List.getLast?_append, hb]
    rfl
  · intro mark hmark
    rw [lexeme, hmark] at hform
    cases hform

theorem skip_lower (lines : Nat) (c : Cursor) (cut : Cut) :
    (c.lower lines).skip cut = (c.skip cut).lower lines := by
  have hstart : (c.lower lines).tokenStart = c.tokenStart.lower lines :=
    c.location.afterAll_lower lines _
  unfold skip
  dsimp only
  rw [hstart, Location.afterAll_lower]
  split <;> rfl

theorem token_lower_of_ok (h : c.token = (.ok t, after)) (hfailure : c.source.failure = none)
    (lines : Nat) : (c.lower lines).token = (.ok (t.lower lines), after.lower lines) := by
  obtain ⟨rfl, hform⟩ := skip_of_token h
  have hstart : (c.lower lines).tokenStart = c.tokenStart.lower lines :=
    c.location.afterAll_lower lines _
  rw [token_of_form (c := c.lower lines) hfailure hform, hstart, ← location_of_token h]
  exact congrArg (Prod.mk _) (c.skip_lower lines c.lexeme)

theorem token_lower_of_error {cause : Cause} (h : c.token = (.error cause, after))
    (hfailure : c.source.failure = none) (lines : Nat) :
    (c.lower lines).token = (.error (cause.lower lines), after.lower lines) := by
  cases hform : c.lexeme.lexeme.form with
  | ok form =>
    rw [token_of_form hfailure hform] at h
    cases h
  | error problem =>
    rw [token_of_problem hfailure hform] at h
    cases h
    have hlower := c.skip_lower lines c.lexeme
    have hread := token_of_problem (c := c.lower lines) hfailure hform
    rw [show (c.lower lines).skip (c.lower lines).lexeme = _ from hlower] at hread
    exact hread

end Cursor

end StackScript
