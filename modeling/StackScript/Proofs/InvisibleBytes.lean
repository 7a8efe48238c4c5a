import StackScript.Proofs.ProblemPlace
/-!
# Bytes that are not visible

Outside of the bodies of its items a source is made of blanks, marks and calls.  A byte that is
neither blank nor visible is refused where an item should start, and only there: behind the first
byte of a call it goes into the name (`Source.invisible_bytes_inside_calls`).
-/

namespace StackScript

/-- The bytes are these parts, one after the other, when these bytes stand behind them. -/
inductive CutsBefore (after : List UInt8) : List UInt8 → List Part → Prop
  | nil : CutsBefore after [] []
  | blank {b : UInt8} {rest : List UInt8} {parts : List Part} (hb : isBlank b = true)
      (h : CutsBefore after rest parts) : CutsBefore after (b :: rest) (.blank b :: parts)
  | item {bytes rest : List UInt8} {form : Form} {parts : List Part}
      (hitem : Item (rest ++ after) bytes form) (h : CutsBefore after rest parts) :
      CutsBefore after (bytes ++ rest) (.item bytes form :: parts)

namespace Part

def bytes : Part → List UInt8
  | .blank b => [b]
  | .item bytes _ => bytes

/-- The bytes of a part that stand in no body.  A call has no body. -/
inductive Outside : Part → List UInt8 → Prop
  | blank {b : UInt8} : Outside (.blank b) [b]
  | call {bytes : List UInt8} {name : String} : Outside (.item bytes (.call name)) bytes
  | textWord {word : List UInt8} {text : String} :
      Outside (.item (Mark.star :: word) (.textWord text)) [Mark.star]
  | quotation {body : List UInt8} {code : String} :
      Outside (.item (Mark.openBracket :: body ++ [Mark.closeBracket]) (.quotation code))
        [Mark.openBracket, Mark.closeBracket]
  | comment {body : List UInt8} {text : String} :
      Outside (.item (Mark.openParenthesis :: body ++ [Mark.closeParenthesis]) (.comment text))
        [Mark.openParenthesis, Mark.closeParenthesis]
  | text {body bytes : List UInt8} {text : String} (h : Escaped body bytes) :
      Outside (.item (Mark.quote :: body ++ [Mark.quote]) (.text text)) [Mark.quote, Mark.quote]
  | openText {body bytes : List UInt8} {text : String} (h : Escaped body bytes) :
      Outside (.item (Mark.quote :: body) (.text text)) [Mark.quote]
  | cutText {body bytes : List UInt8} {text : String} (h : Escaped body bytes) :
      Outside (.item (Mark.quote :: body ++ [Mark.backslash]) (.text text)) [Mark.quote]

/-- The byte stands in a call, behind its first byte. -/
def Continues (b : UInt8) (part : Part) : Prop :=
  ∃ first word name, part = .item (first :: word) (.call name) ∧ b ∈ word

end Part

section Items

variable {after after' bytes : List UInt8} {form : Form}

theorem Item.exists_outside (h : Item after bytes form) :
    ∃ outside, Part.Outside (.item bytes form) outside := by
  cases h with
  | quotation => exact ⟨_, .quotation⟩
  | comment => exact ⟨_, .comment⟩
  | text h => exact ⟨_, .text h⟩
  | openText h => exact ⟨_, .openText h⟩
  | cutText h => exact ⟨_, .cutText h⟩
  | textWord => exact ⟨_, .textWord⟩
  | call => exact ⟨_, .call⟩

theorem Item.visible_or_continues (h : Item after bytes form) {outside : List UInt8}
    (hout : Part.Outside (.item bytes form) outside) {b : UInt8} (hb : b ∈ outside) :
    isVisible b = true ∨ Part.Continues b (.item bytes form) := by
  cases hout with
  | call =>
    cases h with
    | @call first word hlow hhigh =>
      rcases List.mem_cons.mp hb with rfl | hword
      · exact .inl (by simp [isVisible, hlow, hhigh])
      · exact .inr ⟨first, word, _, rfl, hword⟩
  | _ => exact .inl (List.all_eq_true (p := isVisible).mp rfl b hb)

theorem Item.of_head (h : Item after bytes form) (hhead : after.head? = after'.head?) :
    Item after' bytes form := by
  have hnil (hafter : after = []) : after' = [] := by
    rwa [hafter, List.head?_nil, eq_comm, List.head?_eq_none_iff] at hhead
  cases h with
  | quotation h => exact .quotation (h.balanced.isBody (by decide) after')
  | comment h => exact .comment (h.balanced.isBody (by decide) after')
  | text h => exact .text h
  | openText h hafter => exact .openText h (hnil hafter)
  | cutText h hafter => exact .cutText h (hnil hafter)
  | textWord hword hafter => exact .textWord hword (by rwa [EndsWord, ← hhead])
  | call hlow hhigh hmark hword hafter =>
    exact .call hlow hhigh hmark hword (by rwa [EndsWord, ← hhead])

theorem Item.insert {first b : UInt8} {left right : List UInt8} {name : String}
    (h : Item after (first :: (left ++ right)) (.call name)) (hb : isBlank b = false) :
    Item after (first :: (left ++ b :: right))
      (.call (Utf8.decodeLossy (first :: (left ++ b :: right)))) := by
  generalize hbytes : first :: (left ++ right) = bytes at h
  cases h with
  | call hlow hhigh hmark hword hafter =>
    cases hbytes
    refine .call hlow hhigh hmark ?_ hafter
    intro a ha
    rcases List.mem_append.mp ha with hleft | hright
    · exact hword a (List.mem_append_left _ hleft)
    · rcases List.mem_cons.mp hright with rfl | hright
      · exact hb
      · exact hword a (List.mem_append_right _ hright)

end Items

section Cuts

variable {after after' bs : List UInt8} {parts ps qs : List Part}

theorem CutsBefore.of_head (h : CutsBefore after bs parts) (hhead : after.head? = after'.head?) :
    CutsBefore after' bs parts := by
  induction h with
  | nil => exact .nil
  | blank hb _ ih => exact .blank hb ih
  | @item bytes rest form parts hitem _ ih =>
    refine .item (hitem.of_head ?_) ih
    cases rest with
    | nil => exact hhead
    | cons b rest => rfl

theorem cutsBefore_blanks (hbs : ∀ b ∈ bs, isBlank b = true) :
    CutsBefore after bs (bs.map .blank) := by
  induction bs with
  | nil => exact .nil
  | cons b bs ih =>
    obtain ⟨hb, hbs⟩ := List.forall_mem_cons.mp hbs
    exact .blank hb (ih hbs)

theorem CutsBefore.append {bs' : List UInt8} (h : CutsBefore (bs' ++ after) bs ps)
    (h' : CutsBefore after bs' qs) : CutsBefore after (bs ++ bs') (ps ++ qs) := by
  induction h with
  | nil => exact h'
  | blank hb _ ih => exact .blank hb ih
  | item hitem _ ih =>
    rw [List.append_assoc]
    exact .item (by rwa [List.append_assoc]) ih

theorem Cuts.flatMap_bytes (h : Cuts bs parts) : parts.flatMap Part.bytes = bs := by
  induction h with
  | nil => rfl
  | blank _ _ ih => rw [List.flatMap_cons, ih]; rfl
  | item _ _ ih => rw [List.flatMap_cons, ih]; rfl

theorem cuts_append_iff :
    Cuts bs (ps ++ qs) ↔ ∃ rest, bs = ps.flatMap Part.bytes ++ rest ∧
      CutsBefore rest (ps.flatMap Part.bytes) ps ∧ Cuts rest qs := by
  induction ps generalizing bs with
  | nil =>
    constructor
    · intro h
      exact ⟨bs, rfl, .nil, h⟩
    · rintro ⟨rest, rfl, -, h⟩
      exact h
  | cons p ps ih =>
    constructor
    · intro h
      cases h with
      | blank hb h =>
        obtain ⟨rest, rfl, hbefore, hrest⟩ := ih.mp h
        exact ⟨rest, rfl, .blank hb hbefore, hrest⟩
      | @item bytes _ form _ hitem h =>
        obtain ⟨rest, rfl, hbefore, hrest⟩ := ih.mp h
        exact ⟨rest, (List.append_assoc _ _ _).symm, .item hitem hbefore, hrest⟩
    · rintro ⟨rest, rfl, hbefore, hrest⟩
      cases p with
      | blank b =>
        generalize hbytes : (Part.blank b :: ps).flatMap Part.bytes = before at hbefore
        cases hbefore with
        | blank hb hbefore =>
          cases hbytes
          exact .blank hb (ih.mpr ⟨rest, rfl, hbefore, hrest⟩)
      | item bytes form =>
        generalize hbytes : (Part.item bytes form :: ps).flatMap Part.bytes = before at hbefore
        cases hbefore with
        | item hitem hbefore =>
          obtain rfl := List.append_cancel_left hbytes
          rw [List.append_assoc]
          exact .item hitem (ih.mpr ⟨rest, rfl, hbefore, hrest⟩)

theorem Cuts.blank_or_visible_or_continues (h : Cuts bs parts) {part : Part}
    (hpart : part ∈ parts) :
    (∃ outside, part.Outside outside) ∧ ∀ outside, part.Outside outside →
      ∀ b ∈ outside, isBlank b = true ∨ isVisible b = true ∨ part.Continues b := by
  induction h with
  | nil => cases hpart
  | @blank b rest parts hb _ ih =>
    rcases List.mem_cons.mp hpart with rfl | hpart
    · refine ⟨⟨_, .blank⟩, ?_⟩
      intro outside hout a ha
      cases hout
      rw [List.mem_singleton.mp ha]
      exact .inl hb
    · exact ih hpart
  | item hitem _ ih =>
    rcases List.mem_cons.mp hpart with rfl | hpart
    · exact ⟨hitem.exists_outside, fun outside hout b hb =>
        .inr (hitem.visible_or_continues hout hb)⟩
    · exact ih hpart

theorem Cuts.insert {before behind : List Part} {first b : UInt8} {left right : List UInt8}
    {name : String}
    (h : Cuts bs (before ++ .item (first :: (left ++ right)) (.call name) :: behind))
    (hb : isBlank b = false) :
    let word := first :: (left ++ b :: right)
    let parts := before ++ .item word (.call (Utf8.decodeLossy word)) :: behind
    Cuts (parts.flatMap Part.bytes) parts := by
  intro word parts
  obtain ⟨rest, -, hbefore, hrest⟩ := cuts_append_iff.mp h
  generalize hcall : Part.item (first :: (left ++ right)) (.call name) :: behind = others at hrest
  cases hrest with
  | nil => cases hcall
  | blank => cases hcall
  | @item _ after _ _ hitem hbehind =>
    cases hcall
    have hword := Cuts.item (hitem.insert hb) hbehind
    rw [List.flatMap_append, hword.flatMap_bytes]
    exact cuts_append_iff.mpr ⟨_, rfl, hbefore.of_head rfl, hword⟩

end Cuts

namespace Cursor

variable {c : Cursor} {l : Location} {b : UInt8}

private theorem tokens_of_blank (hb : isBlank b = true) {rest : List UInt8}
    (hpending : c.pending = b :: rest) :
    c.tokens = (⟨⟨rest, c.source.failure⟩, none, c.location.after b⟩ : Cursor).tokens := by
  refine tokens_congr (token_congr ?_ ?_ rfl)
  · rw [lexeme, hpending, List.dropWhile_cons_of_pos hb]
    rfl
  · rw [tokenStart, hpending, List.takeWhile_cons_of_pos hb, Location.afterAll_cons]
    rfl

private theorem tokens_of_item {bytes rest : List UInt8} {form : Form}
    (hfailure : c.source.failure = none) (hpending : c.pending = bytes ++ rest)
    (hitem : Item rest bytes form) :
    ∃ after : Cursor, after.pending = rest ∧ after.location = c.location.afterAll bytes ∧
      after.source.failure = none ∧ c.tokens.2 = after.tokens.2 := by
  obtain ⟨hform, hused, hrest⟩ := hitem.cut_append
  obtain ⟨first, word, rfl, hfirst⟩ := hitem.exists_cons
  obtain ⟨hlexeme, hplace⟩ : c.lexeme = Lexeme.cut (first :: word ++ rest) ∧
      c.tokenStart = c.location :=
    lexeme_of_pending [] hpending (List.forall_mem_nil _) hfirst
  rw [← hlexeme] at hform hused hrest
  have hend : form ≠ .endOfInput := by
    rintro rfl
    cases hitem
  refine ⟨c.skip c.lexeme, ?_, ?_, ?_, ?_⟩
  · rw [pending_skip, hrest]
  · rw [location_skip, hplace, hused]
  · rw [failure_skip, hfailure]
  · rw [tokens_of_token (token_of_form hfailure hform) hend]

theorem exists_item_of_token {after : Cursor} {t : Token} (h : c.token = (.ok t, after))
    (ht : t.form ≠ .endOfInput) :
    ∃ blanks bytes, c.pending = blanks ++ (bytes ++ after.pending) ∧
      (∀ b ∈ blanks, isBlank b = true) ∧ Item after.pending bytes t.form ∧
      after.location = c.location.afterAll (blanks ++ bytes) ∧
      after.source.failure = c.source.failure := by
  have hresult : c.token.1 = .ok t := by rw [h]
  have hforth : c.forth = after := by rw [forth, h]
  obtain ⟨hpending, hlocation⟩ := c.moves_forth.pending_eq
  have hfinds := c.finds_token
  rw [hforth] at hpending hlocation hfinds
  rw [hresult] at hfinds
  generalize c.taken = taken at hfinds hpending hlocation
  generalize hleft : after.source.failure = left at hfinds ⊢
  cases hfinds with
  | endOfInput => exact absurd rfl ht
  | @item blanks bytes rest form hitems hblanks hitem =>
    have hrest : rest = after.pending := by
      rwa [hitems, List.append_assoc, List.append_cancel_left_eq,
        List.append_cancel_left_eq] at hpending
    rw [hrest] at hitems hitem
    exact ⟨blanks, bytes, hitems, hblanks, hitem, hlocation, rfl⟩

/-- An unexpected byte is what the reading of a source ends with, exactly if what stands before it
can be cut into blanks and items. -/
theorem tokens_eq_unexpected_iff (hfailure : c.source.failure = none) :
    c.tokens.2 = some (.malformed (.unexpected b) l) ↔
      ∃ before rest parts, c.pending = before ++ b :: rest ∧
        CutsBefore (b :: rest) before parts ∧ isBlank b = false ∧
        (isVisible b = false ∨ b = Mark.closeBracket) ∧
        l = c.location.afterAll (before ++ [b]) := by
  constructor
  · intro h
    induction c using token_induction with
    | step c ih =>
      rcases htoken : c.token with ⟨result, after⟩
      cases result with
      | error cause =>
        rw [tokens_of_error htoken] at h
        cases h
        obtain ⟨blanks, rest, hpending, hblanks, hb, hstart, hl⟩ :=
          token_eq_unexpected_iff.mp (congrArg Prod.fst htoken)
        exact ⟨blanks, rest, _, hpending, cutsBefore_blanks hblanks, hb, hstart, hl⟩
      | ok t =>
        by_cases ht : t.form = .endOfInput
        · rw [tokens_of_end htoken ht] at h
          cases h
        · rw [tokens_of_token htoken ht] at h
          obtain ⟨blanks, bytes, hitems, hblanks, hitem, hlocation, hleft⟩ :=
            exists_item_of_token htoken ht
          obtain ⟨before, rest, parts, hpending, hcuts, hb, hstart, hl⟩ :=
            ih t after htoken ht (hleft.trans hfailure) h
          rw [hpending] at hitems hitem
          refine ⟨blanks ++ (bytes ++ before), rest, _, ?_,
            (cutsBefore_blanks hblanks).append (.item hitem hcuts), hb, hstart, ?_⟩
          · rw [hitems]
            simp only [List.append_assoc]
          · rw [hl, hlocation, ← Location.afterAll_append]
            simp only [List.append_assoc]
  · rintro ⟨before, rest, parts, hpending, hcuts, hb, hstart, rfl⟩
    induction hcuts generalizing c with
    | nil =>
      have htoken : c.token.1 =
          .error (.malformed (.unexpected b) (c.location.afterAll ([] ++ [b]))) :=
        token_eq_unexpected_iff.mpr ⟨[], rest, hpending, List.forall_mem_nil _, hb, hstart, rfl⟩
      rw [tokens_of_error (Prod.ext htoken rfl)]
    | @blank a before parts ha _ ih =>
      let after : Cursor := ⟨⟨before ++ b :: rest, c.source.failure⟩, none, c.location.after a⟩
      have htokens := ih (c := after) hfailure rfl
      rw [tokens_of_blank ha hpending]
      exact htokens
    | item hitem _ ih =>
      rw [List.append_assoc] at hpending
      obtain ⟨after, hrest, hplace, hnone, htokens⟩ := tokens_of_item hfailure hpending hitem
      rw [htokens, ih hnone hrest, hplace, ← Location.afterAll_append, List.append_assoc]

end Cursor

/-- In a readable source every byte that stands in no body is blank, visible or continues a call.
Whatever continues a call is not looked at: any byte but a blank can be put behind the first byte of
a call, and nothing but its name changes.  The byte that a source is refused for stands where an item
should start. -/
theorem Source.invisible_bytes_inside_calls (bytes : List UInt8) :
    (∀ ts, (Source.ofBytes bytes).tokens = .ok ts →
      ∃ parts, Cuts bytes parts ∧ ts = Part.tokens [] parts ∧ ∀ part ∈ parts,
        (∃ outside, part.Outside outside) ∧ ∀ outside, part.Outside outside →
          ∀ b ∈ outside, isBlank b = true ∨ isVisible b = true ∨ part.Continues b) ∧
    (∀ before behind first left right name b,
      Cuts bytes (before ++ .item (first :: (left ++ right)) (.call name) :: behind) →
      isBlank b = false →
        let word := first :: (left ++ b :: right)
        let parts := before ++ .item word (.call (Utf8.decodeLossy word)) :: behind
        (Source.ofBytes (parts.flatMap Part.bytes)).tokens = .ok (Part.tokens [] parts)) ∧
    ∀ b l, (Source.ofBytes bytes).tokens = .error (.malformed (.unexpected b) l) ↔
      ∃ before rest parts, bytes = before ++ b :: rest ∧ CutsBefore (b :: rest) before parts ∧
        isBlank b = false ∧ (isVisible b = false ∨ b = Mark.closeBracket) ∧
        l = .behind (before ++ [b]) := by
  refine ⟨?_, ?_, ?_⟩
  · intro ts h
    obtain ⟨parts, hcuts, hts⟩ := ((Source.tokens_iff_cuts bytes).1 ts).mp h
    exact ⟨parts, hcuts, hts, fun part hpart => hcuts.blank_or_visible_or_continues hpart⟩
  · intro before behind first left right name b hcuts hb word parts
    exact ((Source.tokens_iff_cuts _).1 _).mpr ⟨parts, hcuts.insert hb, rfl⟩
  · intro b l
    simp only [Location.behind_eq_afterAll]
    rw [tokens_eq_error_iff]
    exact Cursor.tokens_eq_unexpected_iff rfl

/-- A carriage return gets into the call `ab`, and the source stays readable. -/
theorem Source.carriage_return_inside_call :
    Cuts (Utf8.encode "ab") [.item (Utf8.encode "ab") (.call "ab")] ∧ isBlank 13 = false ∧
      (Source.ofText "a\rb").tokens = .ok [⟨⟨1, 1⟩, .call "a\rb"⟩, ⟨⟨1, 4⟩, .endOfInput⟩] ∧
      ∃ parts, Cuts (Utf8.encode "a\rb") parts ∧ ∀ part ∈ parts, ∀ outside, part.Outside outside →
        ∀ b ∈ outside, isBlank b = true ∨ isVisible b = true ∨ part.Continues b := by
  have hword : ∀ b ∈ ([98] : List UInt8), isBlank b = false := List.forall_mem_singleton.mpr rfl
  have hitem : Item [] (Utf8.encode "ab") (.call (Utf8.decodeLossy (Utf8.encode "ab"))) :=
    .call (b := 97) (by decide) (by decide) (by decide) hword (by simp [EndsWord])
  have hname : Utf8.decodeLossy (Utf8.encode "ab") = "ab" := rfl
  rw [hname] at hitem
  have hcuts : Cuts (Utf8.encode "ab") [.item (Utf8.encode "ab") (.call "ab")] := .item hitem .nil
  have hinserted := (invisible_bytes_inside_calls (Utf8.encode "ab")).2.1 [] [] 97 [] [98] "ab" 13
    hcuts (by decide)
  have htokens : (Source.ofText "a\rb").tokens =
      .ok [⟨⟨1, 1⟩, .call "a\rb"⟩, ⟨⟨1, 4⟩, .endOfInput⟩] := by
    have hchanged : Utf8.decodeLossy [97, 13, 98] = "a\rb" := rfl
    dsimp only [List.nil_append] at hinserted
    rw [hchanged] at hinserted
    exact hinserted
  obtain ⟨parts, hparts, -, hbytes⟩ :=
    (invisible_bytes_inside_calls (Utf8.encode "a\rb")).1 _ htokens
  exact ⟨hcuts, by decide, htokens, parts, hparts, fun part hpart => (hbytes part hpart).2⟩

end StackScript
