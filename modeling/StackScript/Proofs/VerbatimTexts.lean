import StackScript.Proofs.TokenRequest
import StackScript.Proofs.WellFormedText
/-!
# The texts of the tokens

The scanner cuts a source and rewrites its bytes without regard to characters, and only then are
they read as text.  It cuts in front of bytes below 128 alone, and a backslash that is one byte takes
the whole character behind it along.  So the tokens of a source that is text say what stands there,
character by character (`Source.texts_are_verbatim`).
-/

namespace StackScript

/-- The text that a text body stands for: a backslash and the character after it stand for a line
feed, a tab or that character.  A backslash at the very end stands for nothing. -/
def Text.unescape : List Char → List Char
  | [] => []
  | [c] => if c = '\\' then [] else [c]
  | c :: d :: rest =>
    if c = '\\' then
      (if d = 'n' then '\n' else if d = 't' then '\t' else d) :: unescape rest
    else
      c :: unescape (d :: rest)

/-- What a token says, apart from its kind. -/
def Form.content : Form → String
  | .endOfInput => ""
  | .call name => name
  | .quotation code => code
  | .text body => body
  | .textWord word => word
  | .comment body => body

/-- A piece of a text is a token of this form, when this text stands behind it. -/
inductive Spells (after : String) : String → Form → Prop
  | endOfInput (hafter : after = "") : Spells after "" .endOfInput
  | call (name : String) : Spells after name (.call name)
  | quotation (code : String) : Spells after ("[" ++ code ++ "]") (.quotation code)
  | text (body : String) :
      Spells after ("\"" ++ body ++ "\"") (.text (String.ofList (Text.unescape body.toList)))
  /-- The end of the source closes a text. -/
  | openText (body : String) (hafter : after = "") :
      Spells after ("\"" ++ body) (.text (String.ofList (Text.unescape body.toList)))
  | textWord (word : String) : Spells after ("*" ++ word) (.textWord word)
  | comment (text : String) : Spells after ("(" ++ text ++ ")") (.comment text)

section Unescape

private theorem Lexeme.unescape_cons_of_ne {b : UInt8} (hb : b ≠ Mark.backslash)
    (rest : List UInt8) : Lexeme.unescape (b :: rest) = b :: Lexeme.unescape rest := by
  cases rest with
  | nil => rw [unescape, unescape, if_neg hb]
  | cons c rest => rw [unescape, if_neg hb]

private theorem Lexeme.unescape_append_of_not_mem {bs : List UInt8} (hbs : Mark.backslash ∉ bs)
    (rest : List UInt8) : Lexeme.unescape (bs ++ rest) = bs ++ Lexeme.unescape rest := by
  induction bs with
  | nil => rfl
  | cons b bs ih =>
    obtain ⟨hb, hbs⟩ := not_or.mp (mt List.mem_cons.mpr hbs)
    rw [List.cons_append, unescape_cons_of_ne (Ne.symm hb), ih hbs, List.cons_append]

private theorem Lexeme.unescape_utf8EncodeChar {c : Char} (hc : c ≠ '\\') (rest : List UInt8) :
    Lexeme.unescape (String.utf8EncodeChar c ++ rest) =
      String.utf8EncodeChar c ++ Lexeme.unescape rest := by
  refine unescape_append_of_not_mem ?_ rest
  rw [Utf8.mem_utf8EncodeChar_iff (by decide)]
  exact hc

private theorem Lexeme.unescape_pair (c : Char) (rest : List UInt8) :
    Lexeme.unescape (Mark.backslash :: (String.utf8EncodeChar c ++ rest)) =
      String.utf8EncodeChar (if c = 'n' then '\n' else if c = 't' then '\t' else c) ++
        Lexeme.unescape rest := by
  by_cases hn : c = 'n'
  · subst hn
    rfl
  by_cases ht : c = 't'
  · subst ht
    rfl
  rw [if_neg hn, if_neg ht]
  obtain ⟨b, tail, hbytes⟩ := Utf8.exists_utf8EncodeChar_eq_cons c
  have hfirst {a : UInt8} (ha : a.toNat < 0x80) (hne : c ≠ Char.ofNat a.toNat) : b ≠ a := by
    rintro rfl
    exact hne ((Utf8.mem_utf8EncodeChar_iff ha).mp (by simp [hbytes]))
  have hlineFeed : b ≠ 110 := hfirst (by decide) hn
  have htab : b ≠ 116 := hfirst (by decide) ht
  have htail : Mark.backslash ∉ tail := by
    intro hmem
    have hlayout := Utf8.layout_utf8EncodeChar c
    rw [hbytes] at hlayout
    obtain ⟨hone, -⟩ := hlayout.eq_singleton (List.mem_cons_of_mem b hmem) (by decide)
    obtain ⟨-, rfl⟩ := List.cons.inj hone
    cases hmem
  rw [hbytes, List.cons_append, unescape, if_pos rfl, if_neg hlineFeed, if_neg htab,
    unescape_append_of_not_mem htail, List.cons_append]

/-- The escapes of a text are resolved on its bytes as on its characters. -/
theorem Lexeme.unescape_encode (text : String) :
    Lexeme.unescape (Utf8.encode text) =
      Utf8.encode (String.ofList (Text.unescape text.toList)) := by
  have hchars (cs : List Char) : Lexeme.unescape (cs.flatMap String.utf8EncodeChar) =
      (Text.unescape cs).flatMap String.utf8EncodeChar := by
    fun_induction Text.unescape cs with
    | case1 => rfl
    | case2 => rfl
    | case3 c hc =>
      have hlast := unescape_utf8EncodeChar hc []
      rwa [unescape, List.append_nil, ← List.flatMap_singleton String.utf8EncodeChar] at hlast
    | case4 d rest ih =>
      rw [List.flatMap_cons, List.flatMap_cons, List.flatMap_cons, ← ih]
      exact unescape_pair d _
    | case5 c d rest hc ih =>
      rw [List.flatMap_cons, unescape_utf8EncodeChar hc, ih, List.flatMap_cons]
  rw [Utf8.encode, hchars, Utf8.encode_ofList]

theorem Text.count_replacement_unescape (cs : List Char) :
    (Text.unescape cs).count Utf8.replacement = cs.count Utf8.replacement := by
  have hbackslash : '\\' ≠ Utf8.replacement := by decide
  fun_induction Text.unescape cs with
  | case1 => rfl
  | case2 => rfl
  | case3 => rfl
  | case4 d rest ih =>
    rw [List.count_cons_of_ne hbackslash, List.count_cons, ih, List.count_cons]
    by_cases hn : d = 'n'
    · subst hn
      rfl
    by_cases ht : d = 't'
    · subst ht
      rfl
    rw [if_neg hn, if_neg ht]
  | case5 c d rest hc ih => rw [List.count_cons, ih, ← List.count_cons]

end Unescape

theorem Spells.count_replacement {after piece : String} {form : Form} (h : Spells after piece form) :
    form.content.toList.count Utf8.replacement = piece.toList.count Utf8.replacement := by
  have hmark {c : Char} (hc : c.toNat < 0x80) : (c == Utf8.replacement) = false := by
    rw [beq_eq_false_iff_ne]
    rintro rfl
    exact absurd hc (by decide)
  cases h <;> simp [Form.content, Text.count_replacement_unescape, List.count_cons, hmark]

section Pieces

variable {rest bytes : List UInt8} {form : Form}

theorem Utf8.eq_empty_of_encode {text : String} (h : encode text = []) : text = "" := by
  rw [← decodeLossy_encode text, h]
  rfl

theorem Utf8.exists_behind (opening : String) {text : String} {body : List UInt8}
    (hrest : ∀ b ∈ rest.head?, b.toNat < 0x80) (h : encode text = encode opening ++ body ++ rest) :
    ∃ inner after, text = opening ++ inner ++ after ∧ encode inner = body ∧ encode after = rest := by
  rw [List.append_assoc] at h
  obtain ⟨right, rfl, hright⟩ := exists_append_of_encode h
  obtain ⟨inner, after, rfl, hinner, hafter⟩ := exists_append_of_encode_eq hrest hright
  exact ⟨inner, after, (String.append_assoc ..).symm, hinner, hafter⟩

theorem Utf8.exists_between (opening closing : String) {text : String} {body : List UInt8}
    (hclosing : ∀ b ∈ (encode closing ++ rest).head?, b.toNat < 0x80)
    (h : encode text = encode opening ++ body ++ encode closing ++ rest) :
    ∃ inner after, text = opening ++ inner ++ closing ++ after ∧ encode inner = body ∧
      encode after = rest := by
  rw [List.append_assoc] at h
  obtain ⟨inner, behind, rfl, hinner, hbehind⟩ := exists_behind opening hclosing h
  obtain ⟨after, rfl, hafter⟩ := exists_append_of_encode hbehind
  exact ⟨inner, after, (String.append_assoc ..).symm, hinner, hafter⟩

theorem toNat_lt_of_isBlank {b : UInt8} (h : isBlank b = true) : b.toNat < 0x80 := by
  simp only [isBlank, Bool.or_eq_true, decide_eq_true_eq] at h
  obtain (rfl | rfl) | rfl := h <;> decide

theorem Item.head_lt (h : Item rest bytes form) : ∀ b ∈ bytes.head?, b.toNat < 0x80 := by
  cases h with
  | @call first word hlow hhigh =>
    intro b hb
    obtain rfl := Option.some.inj hb
    have hle := UInt8.le_iff_toNat_le.mp hhigh
    exact Nat.lt_of_le_of_lt hle (by decide)
  | _ =>
    intro b hb
    obtain rfl := Option.some.inj hb
    decide

theorem Item.spells {text : String} (h : Item rest bytes form)
    (htext : Utf8.encode text = bytes ++ rest) :
    ∃ piece after, text = piece ++ after ∧ Utf8.encode piece = bytes ∧ Utf8.encode after = rest ∧
      Spells after piece form := by
  have hmark {b : UInt8} (hb : b.toNat < 0x80) : ∀ a ∈ ([b] ++ rest).head?, a.toNat < 0x80 := by
    intro a ha
    rwa [← Option.some.inj ha]
  have hword (hafter : EndsWord rest) : ∀ b ∈ rest.head?, b.toNat < 0x80 :=
    fun b hb => toNat_lt_of_isBlank (hafter b hb)
  have hend (hafter : rest = []) : ∀ b ∈ rest.head?, b.toNat < 0x80 := by
    rw [hafter]
    exact fun b hb => nomatch hb
  cases h with
  | quotation =>
    obtain ⟨code, after, rfl, rfl, rfl⟩ :=
      Utf8.exists_between "[" "]" (hmark (by decide)) htext
    rw [Utf8.decodeLossy_encode]
    exact ⟨_, after, rfl, by rw [Utf8.encode_append, Utf8.encode_append]; rfl, rfl, .quotation code⟩
  | comment =>
    obtain ⟨inner, after, rfl, rfl, rfl⟩ :=
      Utf8.exists_between "(" ")" (hmark (by decide)) htext
    rw [Utf8.decodeLossy_encode]
    exact ⟨_, after, rfl, by rw [Utf8.encode_append, Utf8.encode_append]; rfl, rfl, .comment inner⟩
  | text h =>
    obtain ⟨body, after, rfl, rfl, rfl⟩ :=
      Utf8.exists_between "\"" "\"" (hmark (by decide)) htext
    rw [← h.unescape_eq, Lexeme.unescape_encode, Utf8.decodeLossy_encode]
    exact ⟨_, after, rfl, by rw [Utf8.encode_append, Utf8.encode_append]; rfl, rfl, .text body⟩
  | openText h hafter =>
    obtain ⟨body, after, rfl, rfl, rfl⟩ :=
      Utf8.exists_behind "\"" (hend hafter) htext
    rw [← h.unescape_eq, Lexeme.unescape_encode, Utf8.decodeLossy_encode]
    exact ⟨_, after, rfl, by rw [Utf8.encode_append]; rfl, rfl,
      .openText body (Utf8.eq_empty_of_encode hafter)⟩
  | @cutText body bytes h hafter =>
    have hinside : Utf8.encode text = Utf8.encode "\"" ++ (body ++ [Mark.backslash]) ++ rest := htext
    obtain ⟨inner, after, rfl, hinner, rfl⟩ :=
      Utf8.exists_behind "\"" (hend hafter) hinside
    have hbytes : bytes = Lexeme.unescape (Utf8.encode inner) := by
      rw [hinner, h.unescape_append, Lexeme.unescape, if_pos rfl, List.append_nil]
    rw [hbytes, Lexeme.unescape_encode, Utf8.decodeLossy_encode]
    exact ⟨_, after, rfl, by rw [Utf8.encode_append, hinner]; rfl, rfl,
      .openText inner (Utf8.eq_empty_of_encode hafter)⟩
  | textWord _ hafter =>
    obtain ⟨word, after, rfl, rfl, rfl⟩ :=
      Utf8.exists_behind "*" (hword hafter) htext
    rw [Utf8.decodeLossy_encode]
    exact ⟨_, after, rfl, by rw [Utf8.encode_append]; rfl, rfl, .textWord word⟩
  | call _ _ _ _ hafter =>
    obtain ⟨name, after, rfl, hname, rfl⟩ := Utf8.exists_append_of_encode_eq (hword hafter) htext
    rw [← hname, Utf8.decodeLossy_encode]
    exact ⟨name, after, rfl, rfl, rfl, .call name⟩

end Pieces

/-- In a source that is text, whatever came before, a token is a piece of that text: the piece that
the request takes behind the blanks, from the place of the token to where the cursor stands
afterwards.  It says what is written there, and holds no replacement character that is not. -/
theorem Source.texts_are_verbatim {s : Source} {text : String}
    (htext : Utf8.decode s.bytes = .ok text) {k : Nat} {t : Token} (ht : s.answer k = .ok t) :
    ∃ before piece after, text = before ++ piece ++ after ∧
      t.location = .behind (Utf8.encode before) ∧
      (∃ blanks, (∀ b ∈ blanks, isBlank b = true) ∧ s.taken k = blanks ++ Utf8.encode piece) ∧
      (s.after (k + 1)).pending = Utf8.encode after ∧ Spells after piece t.form ∧
      t.form.content.toList.count Utf8.replacement = piece.toList.count Utf8.replacement := by
  rw [Utf8.decode_eq_ok_iff] at htext
  obtain ⟨hbytes, hlocation⟩ := s.takenUpTo_append_pending k
  have hpending := s.pending_after_succ k
  have hfinds := s.finds_answer k
  generalize s.taken k = taken at hfinds hpending ⊢
  generalize (s.after (k + 1)).source.failure = left at hfinds
  rw [ht] at hfinds
  cases hfinds with
  | endOfInput hblanks =>
    refine ⟨text, "", "", by simp, ?_, ⟨_, hblanks, by simp⟩, ?_, .endOfInput rfl, rfl⟩
    · rw [hlocation, ← Location.behind_append, hbytes, htext]
    · exact List.append_right_eq_self.mp hpending.symm
  | @item blanks bytes rest form hitems hblanks hitem =>
    rw [hitems, List.append_assoc, List.append_cancel_left_eq, List.append_cancel_left_eq] at hpending
    rw [hitems, ← List.append_assoc, ← htext] at hbytes
    have hstart : ∀ b ∈ (bytes ++ rest).head?, b.toNat < 0x80 := by
      obtain ⟨first, more, rfl, -⟩ := hitem.exists_cons
      exact hitem.head_lt
    obtain ⟨before, right, rfl, hbefore, hright⟩ :=
      Utf8.exists_append_of_encode_eq hstart hbytes.symm
    obtain ⟨piece, after, rfl, rfl, hafter, hspells⟩ := hitem.spells hright
    refine ⟨before, piece, after, (String.append_assoc ..).symm, ?_, ⟨blanks, hblanks, rfl⟩, ?_,
      hspells, hspells.count_replacement⟩
    · rw [hlocation, ← Location.behind_append, hbefore]
    · rw [← hpending, hafter]

/-- A character of two bytes stays whole behind a mark and a backslash. -/
theorem Source.escaped_character_stays_whole :
    let s := Source.ofText "\"\\é\""
    Utf8.decode s.bytes = .ok "\"\\é\"" ∧ s.answer 0 = .ok ⟨⟨1, 1⟩, .text "é"⟩ ∧
      ∃ before piece after, "\"\\é\"" = before ++ piece ++ after ∧
        Spells after piece (.text "é") ∧ piece.toList.count Utf8.replacement = 0 := by
  intro s
  have htext : Utf8.decode s.bytes = .ok "\"\\é\"" := rfl
  have ht : s.answer 0 = .ok ⟨⟨1, 1⟩, .text "é"⟩ := rfl
  obtain ⟨before, piece, after, hsplit, -, -, -, hspells, hcount⟩ := texts_are_verbatim htext ht
  refine ⟨htext, ht, before, piece, after, hsplit, hspells, ?_⟩
  rw [← hcount]
  decide

end StackScript
