/-!
# Lexemes

Between blanks a source is made of lexemes: quotations in brackets, comments in parentheses, texts
in quotes, text words after a star, and calls.  `cut` takes the first lexeme off some bytes and
says how it ended, which decides how far the source had to be looked at.
-/

namespace StackScript

/-- Whether a byte separates lexemes: a space, a tab or a line feed. -/
def isBlank (b : UInt8) : Bool :=
  b = 32 || b = 9 || b = 10

/-- Whether a byte is a visible ASCII character. -/
def isVisible (b : UInt8) : Bool :=
  33 ≤ b && b ≤ 126

namespace Mark

def openBracket : UInt8 := 91
def closeBracket : UInt8 := 93
def openParenthesis : UInt8 := 40
def closeParenthesis : UInt8 := 41
def quote : UInt8 := 34
def star : UInt8 := 42
def backslash : UInt8 := 92

end Mark

/-- A first part of a source.  The bytes are those between the marks. -/
inductive Lexeme where
  | nothing
  | call (name : List UInt8)
  | textWord (word : List UInt8)
  | quotation (body : List UInt8)
  | comment (body : List UInt8)
  | text (body : List UInt8)
  | unclosed (mark : UInt8)
  | unexpected (byte : UInt8)
deriving Repr, DecidableEq

/-- How a lexeme ended. -/
inductive Ending where
  /-- With its own last byte. -/
  | complete
  /-- At the blank after it, which has been looked at. -/
  | blank
  /-- At the end of the source, which has been looked at. -/
  | source
deriving Repr, DecidableEq

/-- A lexeme taken off some bytes: the bytes it takes up and the bytes after it. -/
structure Cut where
  lexeme : Lexeme
  used : List UInt8
  rest : List UInt8
  ending : Ending
deriving Repr, DecidableEq

namespace Lexeme

/-- The bytes up to the mark that closes as many marks as are open, and the bytes after it. -/
def enclosed (opening closing : UInt8) : Nat → List UInt8 → Option (List UInt8 × List UInt8)
  | _, [] => none
  | depth, b :: rest =>
    if b = opening then
      (enclosed opening closing (depth + 1) rest).map fun (body, after) => (b :: body, after)
    else if b = closing then
      match depth with
      | 0 => some ([], rest)
      | depth + 1 =>
        (enclosed opening closing depth rest).map fun (body, after) => (b :: body, after)
    else
      (enclosed opening closing depth rest).map fun (body, after) => (b :: body, after)

theorem append_of_enclosed {opening closing : UInt8} {depth : Nat} {bs body after : List UInt8}
    (h : enclosed opening closing depth bs = some (body, after)) :
    body ++ closing :: after = bs := by
  induction bs generalizing depth body with
  | nil => simp [enclosed] at h
  | cons b rest ih =>
    unfold enclosed at h
    split at h
    · obtain ⟨⟨inner, tail⟩, hi, he⟩ := Option.map_eq_some_iff.mp h
      cases he
      simp [ih hi]
    · split at h
      · rename_i hb
        cases depth with
        | zero =>
          cases h
          simp [hb]
        | succ depth =>
          obtain ⟨⟨inner, tail⟩, hi, he⟩ := Option.map_eq_some_iff.mp h
          cases he
          simp [ih hi]
      · obtain ⟨⟨inner, tail⟩, hi, he⟩ := Option.map_eq_some_iff.mp h
        cases he
        simp [ih hi]

/-- The bytes up to the quote that ends a text, and the bytes after it if there is such a quote.
A byte after a backslash ends nothing. -/
def textBody : List UInt8 → List UInt8 × Option (List UInt8)
  | [] => ([], none)
  | [b] => if b = Mark.quote then ([], some []) else ([b], none)
  | b :: c :: rest =>
    if b = Mark.quote then ([], some (c :: rest))
    else if b = Mark.backslash then
      let (body, after) := textBody rest
      (b :: c :: body, after)
    else
      let (body, after) := textBody (c :: rest)
      (b :: body, after)

theorem append_textBody (bs : List UInt8) :
    (textBody bs).1 ++ ((textBody bs).2.map (Mark.quote :: ·)).getD [] = bs := by
  fun_induction textBody bs <;> simp_all

/-- The bytes that a text body stands for: a backslash and the byte after it stand for a line
feed, a tab or that byte.  A backslash at the very end stands for nothing. -/
def unescape : List UInt8 → List UInt8
  | [] => []
  | [b] => if b = Mark.backslash then [] else [b]
  | b :: c :: rest =>
    if b = Mark.backslash then
      (if c = 110 then 10 else if c = 116 then 9 else c) :: unescape rest
    else
      b :: unescape (c :: rest)

/-- A lexeme between a pair of marks that nest, the first of which has been taken. -/
def cutEnclosed (form : List UInt8 → Lexeme) (opening closing : UInt8) (rest : List UInt8) : Cut :=
  match enclosed opening closing 0 rest with
  | some (body, after) =>
    { lexeme := form body, used := opening :: body ++ [closing], rest := after, ending := .complete }
  | none => { lexeme := .unclosed closing, used := opening :: rest, rest := [], ending := .source }

/-- A text whose opening quote has been taken.  The end of the source ends it like a quote. -/
def cutText (rest : List UInt8) : Cut :=
  match textBody rest with
  | (body, some after) =>
    { lexeme := .text (unescape body), used := Mark.quote :: body ++ [Mark.quote],
      rest := after, ending := .complete }
  | (body, none) =>
    { lexeme := .text (unescape body), used := Mark.quote :: body, rest := [], ending := .source }

def cutWord (form : List UInt8 → Lexeme) (first : UInt8) (rest : List UInt8) : Cut :=
  let word := rest.takeWhile (!isBlank ·)
  let after := rest.dropWhile (!isBlank ·)
  { lexeme := form word, used := first :: word, rest := after
    ending := if after.isEmpty then .source else .blank }

/-- Take the first lexeme off some bytes that do not start with a blank. -/
def cut : List UInt8 → Cut
  | [] => { lexeme := .nothing, used := [], rest := [], ending := .source }
  | b :: rest =>
    if b = Mark.openBracket then cutEnclosed .quotation Mark.openBracket Mark.closeBracket rest
    else if b = Mark.openParenthesis then
      cutEnclosed .comment Mark.openParenthesis Mark.closeParenthesis rest
    else if b = Mark.quote then cutText rest
    else if b = Mark.star then cutWord .textWord b rest
    else if isVisible b && b ≠ Mark.closeBracket then cutWord (fun w => .call (b :: w)) b rest
    else { lexeme := .unexpected b, used := [b], rest := rest, ending := .complete }

theorem used_append_rest_cutEnclosed (form : List UInt8 → Lexeme) (opening closing : UInt8)
    (bs : List UInt8) :
    (cutEnclosed form opening closing bs).used ++ (cutEnclosed form opening closing bs).rest =
      opening :: bs := by
  unfold cutEnclosed
  split
  · rename_i h
    simp [append_of_enclosed h]
  · simp

theorem used_append_rest_cutText (bs : List UInt8) :
    (cutText bs).used ++ (cutText bs).rest = Mark.quote :: bs := by
  have h := append_textBody bs
  unfold cutText
  split <;> simp_all

theorem used_append_rest_cutWord (form : List UInt8 → Lexeme) (first : UInt8) (bs : List UInt8) :
    (cutWord form first bs).used ++ (cutWord form first bs).rest = first :: bs := by
  simp [cutWord]

theorem used_append_rest_cut (bs : List UInt8) : (cut bs).used ++ (cut bs).rest = bs := by
  fun_cases cut bs with
  | case1 => rfl
  | case2 rest => rw [used_append_rest_cutEnclosed]
  | case3 rest => rw [used_append_rest_cutEnclosed]
  | case4 rest => rw [used_append_rest_cutText]
  | case5 rest => rw [used_append_rest_cutWord]
  | case6 b rest => rw [used_append_rest_cutWord]
  | case7 b rest => rfl

end Lexeme

end StackScript
