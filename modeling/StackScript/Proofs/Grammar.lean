import Mathlib.Data.List.Induction
import Mathlib.Data.Set.Subsingleton
import StackScript.Proofs.Reading
/-!
# The grammar of sources

A source is made of blanks and items.  `Item` says what an item is, without reading from left to
right: what stands between its marks, and what may stand behind it.  A readable source can be cut
into blanks and items in exactly one way, and its tokens are the items of that cut, each at the
place of its first byte, with the end of the source as the last one (`Source.tokens_iff_cuts`).
-/

namespace StackScript

/-- Bytes in which every opening mark is closed and every closing mark closes one. -/
inductive Balanced (opening closing : UInt8) : List UInt8 → Prop
  | nil : Balanced opening closing []
  | byte {b : UInt8} {rest : List UInt8} (hopening : b ≠ opening) (hclosing : b ≠ closing)
      (hrest : Balanced opening closing rest) : Balanced opening closing (b :: rest)
  | nested {inner rest : List UInt8} (hinner : Balanced opening closing inner)
      (hrest : Balanced opening closing rest) :
      Balanced opening closing (opening :: inner ++ closing :: rest)

/-- Of all balanced bytes with a closing mark behind them, the body is the shortest. -/
structure IsBody (opening closing : UInt8) (body after : List UInt8) : Prop where
  balanced : Balanced opening closing body
  shortest : ∀ other rest, Balanced opening closing other →
    other ++ closing :: rest = body ++ closing :: after → body.length ≤ other.length

/-- The bytes between two quotes, and the bytes that they stand for.  A backslash takes the byte
after it with it. -/
inductive Escaped : List UInt8 → List UInt8 → Prop
  | nil : Escaped [] []
  | byte {b : UInt8} {body bytes : List UInt8} (hquote : b ≠ Mark.quote)
      (hbackslash : b ≠ Mark.backslash) (h : Escaped body bytes) : Escaped (b :: body) (b :: bytes)
  | lineFeed {body bytes : List UInt8} (h : Escaped body bytes) :
      Escaped (Mark.backslash :: 110 :: body) (10 :: bytes)
  | tab {body bytes : List UInt8} (h : Escaped body bytes) :
      Escaped (Mark.backslash :: 116 :: body) (9 :: bytes)
  | itself {c : UInt8} {body bytes : List UInt8} (hlineFeed : c ≠ 110) (htab : c ≠ 116)
      (h : Escaped body bytes) : Escaped (Mark.backslash :: c :: body) (c :: bytes)

def EndsWord (after : List UInt8) : Prop :=
  ∀ b ∈ after.head?, isBlank b

/-- The bytes are an item that says the form, when these are the bytes after it. -/
inductive Item (after : List UInt8) : List UInt8 → Form → Prop
  | quotation {body : List UInt8} (h : IsBody Mark.openBracket Mark.closeBracket body after) :
      Item after (Mark.openBracket :: body ++ [Mark.closeBracket])
        (.quotation (Utf8.decodeLossy body))
  | comment {body : List UInt8} (h : IsBody Mark.openParenthesis Mark.closeParenthesis body after) :
      Item after (Mark.openParenthesis :: body ++ [Mark.closeParenthesis])
        (.comment (Utf8.decodeLossy body))
  | text {body bytes : List UInt8} (h : Escaped body bytes) :
      Item after (Mark.quote :: body ++ [Mark.quote]) (.text (Utf8.decodeLossy bytes))
  /-- The end of the source closes a text. -/
  | openText {body bytes : List UInt8} (h : Escaped body bytes) (hafter : after = []) :
      Item after (Mark.quote :: body) (.text (Utf8.decodeLossy bytes))
  /-- A backslash in front of the end of the source stands for nothing. -/
  | cutText {body bytes : List UInt8} (h : Escaped body bytes) (hafter : after = []) :
      Item after (Mark.quote :: body ++ [Mark.backslash]) (.text (Utf8.decodeLossy bytes))
  | textWord {word : List UInt8} (hword : ∀ b ∈ word, isBlank b = false)
      (hafter : EndsWord after) : Item after (Mark.star :: word) (.textWord (Utf8.decodeLossy word))
  | call {b : UInt8} {word : List UInt8} (hlow : 33 ≤ b) (hhigh : b ≤ 126)
      (hmark : b ∉ [Mark.openBracket, Mark.closeBracket, Mark.openParenthesis, Mark.quote,
        Mark.star])
      (hword : ∀ b ∈ word, isBlank b = false) (hafter : EndsWord after) :
      Item after (b :: word) (.call (Utf8.decodeLossy (b :: word)))

inductive Part where
  | blank (b : UInt8)
  | item (bytes : List UInt8) (form : Form)

/-- The bytes are these parts, one after the other. -/
inductive Cuts : List UInt8 → List Part → Prop
  | nil : Cuts [] []
  | blank {b : UInt8} {rest : List UInt8} {parts : List Part} (hb : isBlank b = true)
      (h : Cuts rest parts) : Cuts (b :: rest) (.blank b :: parts)
  | item {bytes rest : List UInt8} {form : Form} {parts : List Part} (hitem : Item rest bytes form)
      (h : Cuts rest parts) : Cuts (bytes ++ rest) (.item bytes form :: parts)

/-- The place behind some bytes: one line more than there are line feeds in them, and one column
more than there are bytes behind the last line feed. -/
def Location.behind (before : List UInt8) : Location :=
  ⟨1 + before.count 10, 1 + (before.reverse.takeWhile (· ≠ 10)).length⟩

/-- The items of a cut as tokens, and the end behind them, when these bytes stand before it. -/
def Part.tokens (before : List UInt8) : List Part → List Token
  | [] => [⟨.behind before, .endOfInput⟩]
  | .blank b :: parts => Part.tokens (before ++ [b]) parts
  | .item bytes form :: parts => ⟨.behind before, form⟩ :: Part.tokens (before ++ bytes) parts

section Enclosed

variable {opening closing : UInt8} {body after : List UInt8}

private theorem enclosed_opening (depth : Nat) (rest : List UInt8) :
    Lexeme.enclosed opening closing depth (opening :: rest) =
      (Lexeme.enclosed opening closing (depth + 1) rest).map
        fun found => (opening :: found.1, found.2) := by
  simp [Lexeme.enclosed]

private theorem enclosed_closing (hmarks : opening ≠ closing) (rest : List UInt8) :
    Lexeme.enclosed opening closing 0 (closing :: rest) = some ([], rest) := by
  simp [Lexeme.enclosed, hmarks.symm]

private theorem enclosed_closing_succ (hmarks : opening ≠ closing) (depth : Nat)
    (rest : List UInt8) :
    Lexeme.enclosed opening closing (depth + 1) (closing :: rest) =
      (Lexeme.enclosed opening closing depth rest).map
        fun found => (closing :: found.1, found.2) := by
  simp [Lexeme.enclosed, hmarks.symm]

private theorem enclosed_byte {b : UInt8} (hopening : b ≠ opening) (hclosing : b ≠ closing)
    (depth : Nat) (rest : List UInt8) :
    Lexeme.enclosed opening closing depth (b :: rest) =
      (Lexeme.enclosed opening closing depth rest).map fun found => (b :: found.1, found.2) := by
  simp [Lexeme.enclosed, hopening, hclosing]

theorem Balanced.enclosed_append (h : Balanced opening closing body) (hmarks : opening ≠ closing)
    (depth : Nat) (rest : List UInt8) :
    Lexeme.enclosed opening closing depth (body ++ rest) =
      (Lexeme.enclosed opening closing depth rest).map fun found => (body ++ found.1, found.2) := by
  induction h generalizing depth rest with
  | nil => simp
  | byte hopening hclosing _ ih =>
    rw [List.cons_append, enclosed_byte hopening hclosing, ih, Option.map_map]
    rfl
  | @nested inner last _ _ ihinner ihlast =>
    have hinner := ihinner (depth + 1) (closing :: (last ++ rest))
    rw [enclosed_closing_succ hmarks, ihlast] at hinner
    simp only [List.cons_append, List.append_assoc, enclosed_opening, hinner, Option.map_map]
    rfl

theorem Balanced.enclosed_eq (h : Balanced opening closing body) (hmarks : opening ≠ closing)
    (after : List UInt8) :
    Lexeme.enclosed opening closing 0 (body ++ closing :: after) = some (body, after) := by
  simp [h.enclosed_append hmarks, enclosed_closing hmarks]

/-- Bytes that close as many marks as are open, the last of them by the mark behind them. -/
inductive Closes (opening closing : UInt8) : Nat → List UInt8 → Prop
  | last {body : List UInt8} (h : Balanced opening closing body) : Closes opening closing 0 body
  | mark {depth : Nat} {inner body : List UInt8} (hinner : Balanced opening closing inner)
      (h : Closes opening closing depth body) :
      Closes opening closing (depth + 1) (inner ++ closing :: body)

theorem Closes.byte {depth : Nat} {b : UInt8} (hopening : b ≠ opening) (hclosing : b ≠ closing)
    (h : Closes opening closing depth body) : Closes opening closing depth (b :: body) := by
  cases h with
  | last hbody => exact .last (.byte hopening hclosing hbody)
  | mark hinner hbody => exact .mark (.byte hopening hclosing hinner) hbody

theorem Closes.opened {depth : Nat} (h : Closes opening closing (depth + 1) body) :
    Closes opening closing depth (opening :: body) := by
  cases h with
  | mark hinner hbody =>
    cases hbody with
    | last hlast => exact .last (.nested hinner hlast)
    | @mark depth next body hnext hbody =>
      have hboth := Closes.mark (.nested hinner hnext) hbody
      simpa using hboth

theorem closes_of_enclosed (hmarks : opening ≠ closing) {depth : Nat} {bs : List UInt8}
    (h : Lexeme.enclosed opening closing depth bs = some (body, after)) :
    Closes opening closing depth body := by
  induction bs generalizing depth body with
  | nil => cases h
  | cons b rest ih =>
    by_cases hopening : b = opening
    · rw [hopening, enclosed_opening] at h
      obtain ⟨⟨inner, tail⟩, hinner, heq⟩ := Option.map_eq_some_iff.mp h
      cases heq
      exact (ih hinner).opened
    · by_cases hclosing : b = closing
      · rw [hclosing] at h
        cases depth with
        | zero =>
          rw [enclosed_closing hmarks] at h
          cases h
          exact .last .nil
        | succ depth =>
          rw [enclosed_closing_succ hmarks] at h
          obtain ⟨⟨inner, tail⟩, hinner, heq⟩ := Option.map_eq_some_iff.mp h
          cases heq
          exact .mark .nil (ih hinner)
      · rw [enclosed_byte hopening hclosing] at h
        obtain ⟨⟨inner, tail⟩, hinner, heq⟩ := Option.map_eq_some_iff.mp h
        cases heq
        exact (ih hinner).byte hopening hclosing

theorem balanced_of_enclosed (hmarks : opening ≠ closing) {bs : List UInt8}
    (h : Lexeme.enclosed opening closing 0 bs = some (body, after)) :
    Balanced opening closing body := by
  have hcloses := closes_of_enclosed hmarks h
  cases hcloses with
  | last hbody => exact hbody

/-- No two balanced bodies compete: the first closing mark that closes nothing ends the body. -/
theorem Balanced.isBody (h : Balanced opening closing body) (hmarks : opening ≠ closing)
    (after : List UInt8) : IsBody opening closing body after := by
  refine ⟨h, ?_⟩
  intro other rest hother heq
  have hfound := hother.enclosed_eq hmarks rest
  rw [heq, h.enclosed_eq hmarks] at hfound
  cases hfound
  exact Nat.le_refl _

end Enclosed

section Text

variable {body bytes : List UInt8}

theorem Escaped.textBody_append (h : Escaped body bytes) (rest : List UInt8) :
    Lexeme.textBody (body ++ rest) =
      (body ++ (Lexeme.textBody rest).1, (Lexeme.textBody rest).2) := by
  induction h with
  | nil => rfl
  | @byte b body bytes hquote hbackslash _ ih =>
    rw [List.cons_append]
    rcases hnext : body ++ rest with _ | ⟨c, tail⟩
    · obtain ⟨rfl, rfl⟩ := List.append_eq_nil_iff.mp hnext
      simp [Lexeme.textBody, hquote]
    · rw [hnext] at ih
      simp [Lexeme.textBody, hquote, hbackslash, ih]
  | lineFeed _ ih => simp [Lexeme.textBody, ih, Mark.backslash, Mark.quote]
  | tab _ ih => simp [Lexeme.textBody, ih, Mark.backslash, Mark.quote]
  | itself _ _ _ ih => simp [Lexeme.textBody, ih, Mark.backslash, Mark.quote]

theorem Escaped.textBody_eq (h : Escaped body bytes) (after : List UInt8) :
    Lexeme.textBody (body ++ Mark.quote :: after) = (body, some after) := by
  rw [h.textBody_append]
  cases after <;> simp [Lexeme.textBody]

theorem Escaped.unescape_append (h : Escaped body bytes) (rest : List UInt8) :
    Lexeme.unescape (body ++ rest) = bytes ++ Lexeme.unescape rest := by
  induction h with
  | nil => rfl
  | @byte b body bytes _ hbackslash _ ih =>
    rw [List.cons_append]
    rcases hnext : body ++ rest with _ | ⟨c, tail⟩
    · obtain ⟨rfl, rfl⟩ := List.append_eq_nil_iff.mp hnext
      simp [Lexeme.unescape, hbackslash] at ih ⊢
      exact ih
    · rw [hnext] at ih
      simp [Lexeme.unescape, hbackslash, ih]
  | lineFeed _ ih => simp [Lexeme.unescape, ih]
  | tab _ ih => simp [Lexeme.unescape, ih]
  | itself hlineFeed htab _ ih => simp [Lexeme.unescape, hlineFeed, htab, ih]

theorem Escaped.unescape_eq (h : Escaped body bytes) : Lexeme.unescape body = bytes := by
  have happend := h.unescape_append []
  simpa [Lexeme.unescape] using happend

theorem escaped_of_textBody (bs : List UInt8) :
    (∃ bytes, Escaped (Lexeme.textBody bs).1 bytes) ∨
      (Lexeme.textBody bs).2 = none ∧
        ∃ body bytes, (Lexeme.textBody bs).1 = body ++ [Mark.backslash] ∧ Escaped body bytes := by
  fun_induction Lexeme.textBody bs with
  | case1 => exact .inl ⟨[], .nil⟩
  | case2 => exact .inl ⟨[], .nil⟩
  | case3 b hquote =>
    by_cases hbackslash : b = Mark.backslash
    · exact .inr ⟨rfl, [], [], by rw [hbackslash]; rfl, .nil⟩
    · exact .inl ⟨[b], .byte hquote hbackslash .nil⟩
  | case4 c rest => exact .inl ⟨[], .nil⟩
  | case5 c rest body after hbody hne ih =>
    rw [hbody] at ih
    have hpair {inner bytes : List UInt8} (h : Escaped inner bytes) :
        ∃ bytes, Escaped (Mark.backslash :: c :: inner) bytes := by
      by_cases hlineFeed : c = 110
      · rw [hlineFeed]
        exact ⟨_, .lineFeed h⟩
      · by_cases htab : c = 116
        · rw [htab]
          exact ⟨_, .tab h⟩
        · exact ⟨_, .itself hlineFeed htab h⟩
    obtain ⟨bytes, h⟩ | ⟨hnone, inner, bytes, hcut, h⟩ := ih
    · exact .inl (hpair h)
    · obtain ⟨bytes, h⟩ := hpair h
      exact .inr ⟨hnone, _, bytes, congrArg (Mark.backslash :: c :: ·) hcut, h⟩
  | case6 b c rest hquote hbackslash body after hbody ih =>
    rw [hbody] at ih
    obtain ⟨bytes, h⟩ | ⟨hnone, inner, bytes, hcut, h⟩ := ih
    · exact .inl ⟨_, .byte hquote hbackslash h⟩
    · exact .inr ⟨hnone, _, _, congrArg (b :: ·) hcut, .byte hquote hbackslash h⟩

end Text

section Items

variable {after bytes : List UInt8} {form : Form}

theorem Item.exists_cons (h : Item after bytes form) :
    ∃ b rest, bytes = b :: rest ∧ isBlank b = false := by
  cases h with
  | call hlow hhigh hmark hword hafter =>
    refine ⟨_, _, rfl, ?_⟩
    simp only [isBlank]
    grind
  | _ => exact ⟨_, _, rfl, rfl⟩

private theorem word_append {word : List UInt8} (hword : ∀ b ∈ word, isBlank b = false)
    (hafter : EndsWord after) :
    (word ++ after).takeWhile (!isBlank ·) = word ∧
      (word ++ after).dropWhile (!isBlank ·) = after := by
  have hall : ∀ b ∈ word, (!isBlank b) = true := by
    intro b hb
    rw [hword b hb, Bool.not_false]
  have hstop : after.takeWhile (!isBlank ·) = [] ∧ after.dropWhile (!isBlank ·) = after := by
    cases after with
    | nil => exact ⟨rfl, rfl⟩
    | cons b rest => simp [hafter b rfl]
  constructor
  · rw [List.takeWhile_append_of_pos hall, hstop.1, List.append_nil]
  · rw [List.dropWhile_append_of_pos hall, hstop.2]

private theorem cut_openBracket (rest : List UInt8) :
    Lexeme.cut (Mark.openBracket :: rest) =
      Lexeme.cutEnclosed .quotation Mark.openBracket Mark.closeBracket rest :=
  rfl

private theorem cut_openParenthesis (rest : List UInt8) :
    Lexeme.cut (Mark.openParenthesis :: rest) =
      Lexeme.cutEnclosed .comment Mark.openParenthesis Mark.closeParenthesis rest :=
  rfl

private theorem cut_quote (rest : List UInt8) :
    Lexeme.cut (Mark.quote :: rest) = Lexeme.cutText rest :=
  rfl

private theorem cut_star (rest : List UInt8) :
    Lexeme.cut (Mark.star :: rest) = Lexeme.cutWord .textWord Mark.star rest :=
  rfl

private theorem cut_call {b : UInt8} (hlow : 33 ≤ b) (hhigh : b ≤ 126)
    (hmark : b ∉ [Mark.openBracket, Mark.closeBracket, Mark.openParenthesis, Mark.quote,
      Mark.star]) (rest : List UInt8) :
    Lexeme.cut (b :: rest) = Lexeme.cutWord (fun word => .call (b :: word)) b rest := by
  simp only [List.mem_cons, List.not_mem_nil, or_false, not_or] at hmark
  simp [Lexeme.cut, hmark, isVisible, hlow, hhigh]

private theorem cutEnclosed_append {opening closing : UInt8} (hmarks : opening ≠ closing)
    {body : List UInt8} (h : Balanced opening closing body) (kind : List UInt8 → Lexeme)
    (after : List UInt8) :
    Lexeme.cutEnclosed kind opening closing (body ++ closing :: after) =
      ⟨kind body, opening :: body ++ [closing], after, .complete⟩ := by
  rw [Lexeme.cutEnclosed, h.enclosed_eq hmarks]

theorem Lexeme.cut_quote_append {body bytes : List UInt8} (h : Escaped body bytes)
    (after : List UInt8) :
    Lexeme.cut (Mark.quote :: body ++ Mark.quote :: after) =
      ⟨.text bytes, Mark.quote :: body ++ [Mark.quote], after, .complete⟩ := by
  simp only [List.cons_append, cut_quote, Lexeme.cutText, h.textBody_eq, h.unescape_eq]

/-- The scanner takes exactly the item off that stands in front. -/
theorem Item.cut_append (h : Item after bytes form) :
    (Lexeme.cut (bytes ++ after)).lexeme.form = .ok form ∧
      (Lexeme.cut (bytes ++ after)).used = bytes ∧
      (Lexeme.cut (bytes ++ after)).rest = after := by
  cases h with
  | @quotation body h =>
    have hcut := cutEnclosed_append (by decide) h.balanced .quotation after
    simp [cut_openBracket, hcut, Lexeme.form]
  | @comment body h =>
    have hcut := cutEnclosed_append (by decide) h.balanced .comment after
    simp [cut_openParenthesis, hcut, Lexeme.form]
  | @text body bytes h =>
    have hcut := Lexeme.cut_quote_append h after
    rw [← List.singleton_append (l := after), ← List.append_assoc] at hcut
    rw [hcut]
    exact ⟨rfl, rfl, rfl⟩
  | @openText body bytes h hafter =>
    have hbody : Lexeme.textBody body = (body, none) := by
      simpa [Lexeme.textBody] using h.textBody_append []
    simp [cut_quote, Lexeme.cutText, hafter, hbody, h.unescape_eq, Lexeme.form]
  | @cutText body bytes h hafter =>
    have hbody : Lexeme.textBody (body ++ [Mark.backslash]) = (body ++ [Mark.backslash], none) :=
      h.textBody_append [Mark.backslash]
    have hbytes : Lexeme.unescape (body ++ [Mark.backslash]) = bytes := by
      simpa [Lexeme.unescape] using h.unescape_append [Mark.backslash]
    simp [cut_quote, Lexeme.cutText, hafter, hbody, hbytes, Lexeme.form]
  | @textWord word hword hafter =>
    have hfound := word_append hword hafter
    simp [cut_star, Lexeme.cutWord, hfound, Lexeme.form]
  | @call b word hlow hhigh hmark hword hafter =>
    have hfound := word_append hword hafter
    simp [cut_call hlow hhigh hmark, Lexeme.cutWord, hfound, Lexeme.form]

private theorem item_of_cutEnclosed {opening closing : UInt8} (hmarks : opening ≠ closing)
    {kind : List UInt8 → Lexeme} (sort : List UInt8 → Form)
    (hkind : ∀ body, (kind body).form = .ok (sort body))
    (hitem : ∀ after body, IsBody opening closing body after →
      Item after (opening :: body ++ [closing]) (sort body)) {rest : List UInt8}
    (h : (Lexeme.cutEnclosed kind opening closing rest).lexeme.form = .ok form) :
    Item (Lexeme.cutEnclosed kind opening closing rest).rest
      (Lexeme.cutEnclosed kind opening closing rest).used form := by
  rcases hfound : Lexeme.enclosed opening closing 0 rest with _ | ⟨body, after⟩
  · simp [Lexeme.cutEnclosed, hfound, Lexeme.form] at h
  · have hbody := (balanced_of_enclosed hmarks hfound).isBody hmarks after
    simp only [Lexeme.cutEnclosed, hfound, hkind, Except.ok.injEq] at h ⊢
    exact h ▸ hitem after body hbody

private theorem item_of_cutText {rest : List UInt8}
    (h : (Lexeme.cutText rest).lexeme.form = .ok form) :
    Item (Lexeme.cutText rest).rest (Lexeme.cutText rest).used form := by
  have hescaped := escaped_of_textBody rest
  rcases hbody : Lexeme.textBody rest with ⟨body, _ | after⟩
  · simp only [Lexeme.cutText, hbody, Lexeme.form, Except.ok.injEq] at h hescaped ⊢
    obtain ⟨bytes, hbytes⟩ | ⟨-, inner, bytes, hcut, hbytes⟩ := hescaped
    · rw [← h, hbytes.unescape_eq]
      exact .openText hbytes rfl
    · have hinner : Lexeme.unescape body = bytes := by
        simpa [hcut, Lexeme.unescape] using hbytes.unescape_append [Mark.backslash]
      rw [← h, hinner, hcut]
      exact .cutText hbytes rfl
  · simp only [Lexeme.cutText, hbody, Lexeme.form, Except.ok.injEq, reduceCtorEq, false_and,
      or_false] at h hescaped ⊢
    obtain ⟨bytes, hbytes⟩ := hescaped
    rw [← h, hbytes.unescape_eq]
    exact .text hbytes

private theorem word_of_takeWhile (rest : List UInt8) :
    (∀ b ∈ rest.takeWhile (!isBlank ·), isBlank b = false) ∧
      EndsWord (rest.dropWhile (!isBlank ·)) := by
  constructor
  · intro b hb
    have hall := List.all_eq_true.mp (List.all_takeWhile (p := (!isBlank ·)) (l := rest)) b hb
    simpa using hall
  · intro b hb
    have hstop := List.head?_dropWhile_not (!isBlank ·) rest
    rw [hb] at hstop
    simpa using hstop

theorem item_of_cut {bs : List UInt8} (hbs : bs ≠ [])
    (h : (Lexeme.cut bs).lexeme.form = .ok form) :
    Item (Lexeme.cut bs).rest (Lexeme.cut bs).used form := by
  revert h
  fun_cases Lexeme.cut bs with
  | case1 => exact absurd rfl hbs
  | case2 rest =>
    exact item_of_cutEnclosed (by decide) (fun body => .quotation (Utf8.decodeLossy body))
      (fun _ => rfl) fun _ _ => .quotation
  | case3 rest =>
    exact item_of_cutEnclosed (by decide) (fun body => .comment (Utf8.decodeLossy body))
      (fun _ => rfl) fun _ _ => .comment
  | case4 rest => exact item_of_cutText
  | case5 rest =>
    intro h
    have hword := word_of_takeWhile rest
    simp only [Lexeme.cutWord, Lexeme.form, Except.ok.injEq] at h ⊢
    rw [← h]
    exact .textWord hword.1 hword.2
  | case6 b rest hbracket hparenthesis hquote hstar hvisible =>
    intro h
    have hword := word_of_takeWhile rest
    simp only [Lexeme.cutWord, Lexeme.form, Except.ok.injEq] at h ⊢
    simp only [isVisible, Bool.and_eq_true, decide_eq_true_eq] at hvisible
    rw [← h]
    refine .call hvisible.1.1 hvisible.1.2 ?_ hword.1 hword.2
    simp [hbracket, hparenthesis, hquote, hstar, hvisible.2]
  | case7 b rest =>
    intro h
    cases h

end Items

section Cuts

variable {bs : List UInt8} {parts : List Part}

theorem cuts_iff_dropWhile :
    Cuts bs parts ↔
      ∃ rest, parts = (bs.takeWhile isBlank).map .blank ++ rest ∧
        Cuts (bs.dropWhile isBlank) rest := by
  induction bs generalizing parts with
  | nil => simp
  | cons b bs ih =>
    by_cases hb : isBlank b = true
    · rw [List.takeWhile_cons_of_pos hb, List.dropWhile_cons_of_pos hb]
      constructor
      · intro h
        generalize hbytes : b :: bs = bytes at h
        cases h with
        | nil => cases hbytes
        | blank _ h =>
          cases hbytes
          obtain ⟨rest, rfl, hrest⟩ := ih.mp h
          exact ⟨rest, rfl, hrest⟩
        | item hitem _ =>
          obtain ⟨first, more, rfl, hfirst⟩ := hitem.exists_cons
          cases hbytes
          rw [hb] at hfirst
          cases hfirst
      · rintro ⟨rest, rfl, hrest⟩
        exact .blank hb (ih.mpr ⟨rest, rfl, hrest⟩)
    · rw [List.takeWhile_cons_of_neg hb, List.dropWhile_cons_of_neg hb]
      simp

theorem cuts_nil_iff : Cuts [] parts ↔ parts = [] := by
  constructor
  · intro h
    generalize hbytes : ([] : List UInt8) = bytes at h
    cases h with
    | nil => rfl
    | blank => cases hbytes
    | item hitem _ =>
      obtain ⟨first, more, rfl, -⟩ := hitem.exists_cons
      cases hbytes
  · rintro rfl
    exact .nil

theorem cuts_iff_cut (hbs : bs ≠ []) (hstart : ∀ b ∈ bs.head?, isBlank b = false) :
    Cuts bs parts ↔
      ∃ form rest, (Lexeme.cut bs).lexeme.form = .ok form ∧
        parts = .item (Lexeme.cut bs).used form :: rest ∧ Cuts (Lexeme.cut bs).rest rest := by
  constructor
  · intro h
    cases h with
    | nil => exact absurd rfl hbs
    | @blank b rest parts hb h =>
      rw [hstart b rfl] at hb
      cases hb
    | @item bytes rest form parts hitem h =>
      obtain ⟨hform, hused, hrest⟩ := hitem.cut_append
      exact ⟨form, parts, hform, by rw [hused], by rw [hrest]; exact h⟩
  · rintro ⟨form, rest, hform, rfl, hrest⟩
    have hcuts := Cuts.item (item_of_cut hbs hform) hrest
    rwa [Lexeme.used_append_rest_cut] at hcuts

theorem Cuts.unique {other : List Part} (h : Cuts bs parts) (hother : Cuts bs other) :
    parts = other := by
  induction h generalizing other with
  | nil => exact (cuts_nil_iff.mp hother).symm
  | @blank b rest parts hb h ih =>
    obtain ⟨others, rfl, hothers⟩ := cuts_iff_dropWhile.mp hother
    rw [List.takeWhile_cons_of_pos hb, List.dropWhile_cons_of_pos hb] at *
    rw [ih (cuts_iff_dropWhile.mpr ⟨others, rfl, hothers⟩)]
    rfl
  | @item bytes rest form parts hitem h ih =>
    obtain ⟨hform, hused, hrest⟩ := hitem.cut_append
    obtain ⟨first, more, hbytes, hfirst⟩ := hitem.exists_cons
    have hne : bytes ++ rest ≠ [] := by simp [hbytes]
    have hstart : ∀ b ∈ (bytes ++ rest).head?, isBlank b = false := by simp [hbytes, hfirst]
    obtain ⟨form', others, hform', rfl, hothers⟩ := (cuts_iff_cut hne hstart).mp hother
    rw [hform] at hform'
    rw [hrest] at hothers
    rw [hused, ih hothers, Except.ok.inj hform']

end Cuts

namespace Location

theorem behind_eq_afterAll (before : List UInt8) : behind before = start.afterAll before := by
  induction before using List.reverseRecOn with
  | nil => rfl
  | append_singleton before b ih =>
    rw [afterAll_append, ← ih]
    by_cases hb : b = 10
    · simp [behind, after, hb, List.count_append]
      omega
    · simp [behind, after, hb, List.count_append]
      omega

theorem behind_append (before bytes : List UInt8) :
    behind (before ++ bytes) = (behind before).afterAll bytes := by
  rw [behind_eq_afterAll, behind_eq_afterAll, afterAll_append]

end Location

theorem Part.tokens_blanks (before blanks : List UInt8) (parts : List Part) :
    Part.tokens before (blanks.map .blank ++ parts) = Part.tokens (before ++ blanks) parts := by
  induction blanks generalizing before with
  | nil => simp
  | cons b blanks ih => simp [Part.tokens, ih]

theorem exists_cuts_iff_dropWhile {bs before : List UInt8} {ts : List Token} :
    (∃ parts, Cuts bs parts ∧ ts = Part.tokens before parts) ↔
      ∃ parts, Cuts (bs.dropWhile isBlank) parts ∧
        ts = Part.tokens (before ++ bs.takeWhile isBlank) parts := by
  constructor
  · rintro ⟨parts, hcuts, rfl⟩
    obtain ⟨rest, rfl, hrest⟩ := cuts_iff_dropWhile.mp hcuts
    exact ⟨rest, hrest, Part.tokens_blanks _ _ _⟩
  · rintro ⟨rest, hrest, rfl⟩
    exact ⟨_, cuts_iff_dropWhile.mpr ⟨rest, rfl, hrest⟩, (Part.tokens_blanks _ _ _).symm⟩

namespace Cursor

/-- At a cursor behind some bytes, the tokens are those of the cut of the bytes that are left. -/
theorem tokens_eq_iff_cuts {c : Cursor} (hfailure : c.source.failure = none) {before : List UInt8}
    (hlocation : c.location = .behind before) (ts : List Token) :
    c.tokens = (ts, none) ↔ ∃ parts, Cuts c.pending parts ∧ ts = Part.tokens before parts := by
  induction c using token_induction generalizing before ts with
  | step c ih =>
    have hstart : c.tokenStart = .behind (before ++ c.pending.takeWhile isBlank) := by
      rw [tokenStart, hlocation, Location.behind_append]
    rw [exists_cuts_iff_dropWhile]
    generalize before ++ c.pending.takeWhile isBlank = start at hstart ⊢
    by_cases hbs : c.pending.dropWhile isBlank = []
    · have hform : c.lexeme.lexeme.form = .ok .endOfInput := by
        rw [lexeme, hbs]
        rfl
      rw [tokens_of_end (token_of_form hfailure hform) rfl, hstart, hbs]
      simp only [cuts_nil_iff, exists_eq_left, Part.tokens, Prod.mk.injEq, and_true, eq_comm]
    · have hhead : ∀ b ∈ (c.pending.dropWhile isBlank).head?, isBlank b = false := by
        intro b hb
        have hstop := List.head?_dropWhile_not isBlank c.pending
        rw [hb] at hstop
        exact hstop
      simp only [cuts_iff_cut hbs hhead]
      rcases hform : (Lexeme.cut (c.pending.dropWhile isBlank)).lexeme.form with problem | form
      · rw [tokens_of_error (token_of_problem hfailure hform)]
        simp
      · have hend : form ≠ .endOfInput := by
          rintro rfl
          exact hbs (Lexeme.eq_nil_of_form_cut hform)
        have htoken := token_of_form hfailure hform
        have hafter : (c.skip c.lexeme).location = .behind (start ++ c.lexeme.used) := by
          rw [location_skip, hstart, Location.behind_append]
        have hfailure' : (c.skip c.lexeme).source.failure = none := by
          rw [failure_skip, hfailure]
        have hrest := ih _ _ htoken hend hfailure' hafter
        rw [pending_skip] at hrest
        rw [tokens_of_token htoken hend, hstart]
        constructor
        · intro h
          obtain ⟨rfl, hproblem⟩ := Prod.mk.inj h
          obtain ⟨parts, hcuts, htokens⟩ := (hrest _).mp (Prod.ext rfl hproblem)
          exact ⟨_, ⟨form, parts, rfl, rfl, hcuts⟩, congrArg (_ :: ·) htokens⟩
        · rintro ⟨_, ⟨_, parts, hok, rfl, hcuts⟩, rfl⟩
          obtain rfl := Except.ok.inj hok
          have htokens := (hrest _).mpr ⟨parts, hcuts, rfl⟩
          rw [htokens]
          rfl

end Cursor

/-- A source of bytes is readable if and only if it can be cut into blanks and items, and it can be
cut in one way at most.  Its tokens are the items of the cut and the end of the source. -/
theorem Source.tokens_iff_cuts (bytes : List UInt8) :
    (∀ ts, (Source.ofBytes bytes).tokens = .ok ts ↔
      ∃ parts, Cuts bytes parts ∧ ts = Part.tokens [] parts) ∧
    {parts | Cuts bytes parts}.Subsingleton := by
  constructor
  · intro ts
    let c : Cursor := .ofSource (.ofBytes bytes)
    have hcursor : c.tokens = (ts, none) ↔
        ∃ parts, Cuts bytes parts ∧ ts = Part.tokens [] parts :=
      Cursor.tokens_eq_iff_cuts rfl rfl ts
    rwa [← Source.tokens_eq_ok_iff] at hcursor
  · intro parts hparts others hothers
    exact hparts.unique hothers

end StackScript
