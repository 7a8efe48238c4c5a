import StackScript.Proofs.TokenEffect
/-!
# The words of a full machine

A script that does nothing but define words of fresh names extends the dictionary by these words
and leaves everything else as it was.  The script of the standard words is one
(`Machine.exists_full_eq`).
-/

namespace StackScript

/-- The words that some tokens define, if that is all they do. -/
def Token.definitions? : List Token → Option (List Word)
  | [] => some []
  | ⟨_, .endOfInput⟩ :: ts => definitions? ts
  | ⟨_, .comment _⟩ :: ts => definitions? ts
  | ⟨_, .textWord name⟩ :: ⟨_, .quotation body⟩ :: ⟨_, .call "define"⟩ :: ts =>
    (definitions? ts).map (Word.scripted name body :: ·)
  | _ => none

theorem Utf8.encode_join (texts : List String) :
    encode (String.join texts) = texts.flatMap encode := by
  simp only [encode, String.toList_join, List.flatMap_assoc]
  rfl

namespace Dictionary

variable {d next : Dictionary} {w : Word} {name : String}

theorem action?_of_define {action : Action} (h : d.define w = .ok next)
    (hname : d.action? name = some action) : next.action? name = some action := by
  rcases hw : d.find? w.name with _ | u
  · rw [define_of_find?_eq_none hw] at h
    cases h
    have hne : w.name ≠ name := by
      rintro rfl
      rw [action?, hw] at hname
      cases hname
    rw [action?, find?, List.find?_cons_of_neg (by simpa using hne)]
    exact hname
  · rw [define_of_find?_eq_some hw] at h
    cases h

end Dictionary

namespace Machine

variable {m : Machine} {values : List Value} {room : Nat} {d : Dictionary}

theorem perform_define {name body : String}
    (hstack : m.stack = ⟨.quotation body :: .text name :: values, room⟩)
    (hdefine : m.dictionary.define (.scripted name body) = .ok d) :
    Primitive.define.perform m =
      .settled (.done { m with stack := ⟨values, room + 2⟩, dictionary := d }) := by
  have haddWord : (m.withStack ⟨values, room + 2⟩).addWord (.scripted name body) =
      .done { m with stack := ⟨values, room + 2⟩, dictionary := d } := by
    rw [addWord, withStack, hdefine]
  simp only [Primitive.perform, performDefine, taking, Stack.popQuotation, Stack.popText,
    Stack.popAs, withStack, hstack]
  exact congrArg Effect.settled haddWord

theorem obeys_of_definitions {ts : List Token} {words : List Word}
    (hts : Token.definitions? ts = some words)
    (hname : m.dictionary.action? "define" = some (.primitive .define))
    (hstack : m.stack = ⟨values, room + 2⟩)
    (hwords : words.foldlM Dictionary.define m.dictionary = .ok d) :
    m.Obeys ts { m with dictionary := d } := by
  fun_induction Token.definitions? ts generalizing m words with
  | case1 =>
    cases hts
    cases hwords
    exact .nil
  | case2 l ts ih => exact ⟨m, ends_obey_of_meaning rfl, ih hts hname hstack hwords⟩
  | case3 l text ts ih => exact .comment (ih hts hname hstack hwords)
  | case4 l name l' body l'' ts ih =>
    obtain ⟨words, hrest, rfl⟩ := Option.map_eq_some_iff.mp hts
    rw [List.foldlM_cons] at hwords
    rcases hdefine : m.dictionary.define (.scripted name body) with cause | next
    · rw [hdefine] at hwords
      cases hwords
    · rw [hdefine] at hwords
      let pushed := m.withStack ⟨.quotation body :: .text name :: values, room⟩
      let defined : Machine := { m with dictionary := next }
      have hperform : Primitive.define.perform pushed = .settled (.done defined) := by
        have hsame : defined = { pushed with stack := ⟨values, room + 2⟩, dictionary := next } := by
          simp only [defined, pushed, withStack, ← hstack]
        rw [hsame]
        exact perform_define rfl hdefine
      have hobeys : defined.Obeys ts { m with dictionary := d } :=
        ih (m := defined) hrest (Dictionary.action?_of_define hdefine hname) hstack hwords
      exact .literal rfl hstack (.literal rfl rfl (.call hname hperform hobeys))
  | case5 => cases hts

/-- A source that does nothing but define words, all of which are defined, adds them to the
dictionary and changes nothing else. -/
theorem sourceEnds_of_definitions {source : Source} {words : List Word}
    (hm : m.depth < m.maxNesting)
    (hsource : (Cursor.ofSource source).tokens.map Token.definitions? id = (some words, none))
    (hname : m.dictionary.action? "define" = some (.primitive .define))
    (hstack : m.stack = ⟨values, room + 2⟩)
    (hwords : words.foldlM Dictionary.define m.dictionary = .ok d) :
    m.SourceEnds source .done { m with dictionary := d } := by
  rw [sourceEnds_iff_tokensEnd hm]
  rcases htokens : (Cursor.ofSource source).tokens with ⟨ts, problem⟩
  rw [htokens, Prod.map_apply, Prod.mk.injEq] at hsource
  obtain ⟨hts, rfl⟩ := hsource
  exact .inl ⟨_, obeys_of_definitions hts hname hstack hwords, rfl, rfl⟩

end Machine

namespace Library

/-- The words that the script of the standard words defines. -/
def scriptedWords : List Word :=
  [ .scripted "dup" "0 pick",
    .scripted "over" "1 pick",
    .scripted "nip" "swap drop",
    .scripted "tuck" "swap 1 pick",
    .scripted "true" "0 0 is-equal",
    .scripted "false" "true invert",
    .scripted "not" "invert",
    .scripted "and" "[] [drop false] if",
    .scripted "or" "[drop true] [] if",
    .scripted "is-not-equal" "is-equal invert",
    .scripted "is-greater-or-equal" "is-smaller invert",
    .scripted "is-smaller-or-equal" "is-greater invert",
    .scripted "negate" "0 swap subtract",
    .scripted "increment" "1 add",
    .scripted "decrement" "1 subtract",
    .scripted "square" "dup multiply",
    .scripted "random-between" "over subtract random add",
    .scripted "when" "[] if",
    .scripted "unless" "[] swap if",
    .scripted "println" "print \"\\n\" print" ]

def standard : Dictionary := .ofList (nativeWords ++ scriptedWords)

theorem definitions?_standardWords :
    (Cursor.ofSource (.ofText standardWords)).tokens.map Token.definitions? id =
      (some scriptedWords, none) := by
  rw [Source.ofText, standardWords, Utf8.encode_join]
  decide +kernel

theorem foldlM_define_scriptedWords :
    scriptedWords.foldlM Dictionary.define natives = .ok standard := by
  rfl

end Library

namespace Machine

variable {m : Machine} {values : List Value} {room : Nat} {a b : Int64}

theorem perform_isEqual_integer (hstack : m.stack = ⟨.integer b :: .integer a :: values, room⟩) :
    (Primitive.operate (.pair .isEqual)).perform m =
      .settled (.done (m.withStack ⟨.boolean (a == b) :: values, room + 1⟩)) := by
  rw [Primitive.perform, hstack]
  rfl

theorem sourceEnds_true (hm : m.depth < m.maxNesting) (hzero : m.dictionary.action? "0" = none)
    (hname : m.dictionary.action? "is-equal" = some (.primitive (.operate (.pair .isEqual))))
    (hstack : m.stack = ⟨values, room + 2⟩) :
    m.SourceEnds (.ofText "0 0 is-equal") .done
      (m.withStack ⟨.boolean true :: values, room + 1⟩) := by
  have htokens : (Cursor.ofSource (.ofText "0 0 is-equal")).tokens =
      ([⟨⟨1, 1⟩, .call "0"⟩, ⟨⟨1, 3⟩, .call "0"⟩, ⟨⟨1, 5⟩, .call "is-equal"⟩] ++
        [⟨⟨1, 13⟩, .endOfInput⟩], none) := rfl
  have hparse : Integer.parse "0" = .ok 0 := rfl
  have hequal : (Primitive.operate (.pair .isEqual)).perform
      (m.opened.withStack ⟨.integer 0 :: .integer 0 :: values, room⟩) =
      .settled (.done (m.opened.withStack ⟨.boolean true :: values, room + 1⟩)) := by
    rw [← beq_self_eq_true (0 : Int64)]
    exact perform_isEqual_integer rfl
  apply sourceEnds_of_obeys (n := m.opened.withStack ⟨.boolean true :: values, room + 1⟩) hm htokens
  exact .number hzero hparse hstack (.number hzero hparse rfl (.call hname hequal .nil))

theorem stack_bare (s : Settings) : (bare s).stack = ⟨[], (bare s).stack.capacity⟩ := by
  simp [bare, ofSettings, Stack.withCapacity, Stack.capacity]

theorem exists_failed_of_definitions {ts : List Token} {w : Word} {words : List Word}
    (hts : Token.definitions? ts = some (w :: words)) (hroom : m.stack.room < 2) :
    ∃ before t after e n k, ts = before ++ t :: after ∧ m.Obeys before n ∧
      (n.obey [] t).Ends (.failed e) k ∧ e.cause = .overflow := by
  fun_induction Token.definitions? ts with
  | case1 => cases hts
  | case2 l ts ih =>
    obtain ⟨before, t, after, e, n, k, rfl, hobeys, hfails⟩ := ih hts
    exact ⟨_ :: before, t, after, e, n, k, rfl, ⟨m, ends_obey_of_meaning rfl, hobeys⟩, hfails⟩
  | case3 l text ts ih =>
    obtain ⟨before, t, after, e, n, k, rfl, hobeys, hfails⟩ := ih hts
    exact ⟨_ :: before, t, after, e, n, k, rfl, .comment hobeys, hfails⟩
  | case4 l name l' body l'' ts ih =>
    by_cases hzero : m.stack.room = 0
    · exact ⟨[], _, _, _, m, m, rfl, .nil, ends_obey_literal_of_full rfl hzero, rfl⟩
    · have hone : m.stack.room - 1 = 0 := by omega
      have hpushed : m.Obeys [⟨l, .textWord name⟩] _ := obeys_literal rfl (Nat.pos_of_ne_zero hzero)
      exact ⟨[_], _, _, _, _, _, rfl, hpushed, ends_obey_literal_of_full rfl hone, rfl⟩
  | case5 => cases hts

/-- A machine with two places on its stack becomes a full one, and nothing but its dictionary
changes by that. -/
theorem exists_full_eq {s : Settings} (hcapacity : 2 ≤ (bare s).stack.capacity)
    (hnesting : 0 < (bare s).maxNesting) :
    ∃ fuel, full fuel s = (.done, { bare s with dictionary := Library.standard }) := by
  obtain ⟨room, hroom⟩ := Nat.exists_eq_add_of_le' hcapacity
  have hstack : (bare s).stack = ⟨[], room + 2⟩ := by
    rw [stack_bare, hroom]
  have hends := sourceEnds_of_definitions hnesting Library.definitions?_standardWords rfl hstack
    Library.foldlM_define_scriptedWords
  exact (sourceEnds_iff_exists_execute (by simp)).mp hends

theorem exists_overflow_of_capacity_lt {s : Settings} (h : (bare s).stack.capacity < 2) :
    ∃ e k, (bare s).SourceEnds (.ofText Library.standardWords) (.failed e) k ∧
      e.cause = .overflow := by
  have hroom : (bare s).opened.stack.room < 2 := by
    have hle : (bare s).stack.room ≤ (bare s).stack.capacity := Nat.le_add_left _ _
    show (bare s).stack.room < 2
    omega
  have hsource := Library.definitions?_standardWords
  rcases htokens : (Cursor.ofSource (.ofText Library.standardWords)).tokens with ⟨ts, problem⟩
  rw [htokens, Prod.map_apply, Prod.mk.injEq] at hsource
  obtain ⟨before, t, after, e, n, k, rfl, hobeys, hfails, hcause⟩ :=
    exists_failed_of_definitions hsource.1 hroom
  exact ⟨e, _, sourceEnds_of_failed (maxNesting_bare_pos s) htokens hobeys hfails, hcause⟩

theorem sourceEnds_of_full {s : Settings} {fuel : Nat} {v : Verdict} (hv : v ≠ .unfinished)
    (h : full fuel s = (v, m)) : (bare s).SourceEnds (.ofText Library.standardWords) v m :=
  (sourceEnds_iff_exists_execute hv).mpr ⟨fuel, h⟩

theorem two_le_capacity_of_full {s : Settings} {fuel : Nat} (h : full fuel s = (.done, m)) :
    2 ≤ (bare s).stack.capacity := by
  by_contra hcapacity
  obtain ⟨e, k, hfails, -⟩ := exists_overflow_of_capacity_lt (Nat.lt_of_not_le hcapacity)
  cases (Progress.Ends.unique (sourceEnds_of_full (by simp) h) hfails).1

theorem cause_of_full {s : Settings} {fuel : Nat} {e : Error} (h : full fuel s = (.failed e, m)) :
    e.cause = .overflow := by
  have hends := sourceEnds_of_full (by simp) h
  by_cases hcapacity : 2 ≤ (bare s).stack.capacity
  · obtain ⟨fuel', hfull⟩ := exists_full_eq hcapacity (maxNesting_bare_pos s)
    cases (Progress.Ends.unique hends (sourceEnds_of_full (by simp) hfull)).1
  · obtain ⟨e', k, hfails, hcause⟩ := exists_overflow_of_capacity_lt (Nat.lt_of_not_le hcapacity)
    cases (Progress.Ends.unique hends hfails).1
    exact hcause

end Machine

end StackScript
