import StackScript.Proofs.QuotedRun
import StackScript.Proofs.StandardWords
/-!
# What the standard words do

The standard words are texts, cut into tokens and looked up again at each call.  What they do rests
on the native words and on each other, and on the two names `0` and `1`, which are numbers as long
as no one defines them (`Dictionary.KeepsStandard`).  Under these conditions, which hold in a full
machine whatever it has run, each word rearranges the top of the stack as documented
(`Machine.Rewrites`), or runs a quotation or not (`Machine.Guards`), and does nothing else.
-/

namespace StackScript

/-- The words of a full machine do what they did at first, and `0` and `1` are numbers. -/
structure Dictionary.KeepsStandard (d : Dictionary) : Prop where
  action?_eq : ∀ {name : String} {action : Action},
    Library.standard.action? name = some action → d.action? name = some action
  zero : d.action? "0" = none
  one : d.action? "1" = none

namespace Machine

/-- What the word of a name makes of a stack, the top first.  Integers are reduced modulo the
number of their bit patterns. -/
inductive Rewrites : String → List Value → List Value → Prop
  | copyTop (a : Value) (rest : List Value) : Rewrites "dup" (a :: rest) (a :: a :: rest)
  | copySecond (a b : Value) (rest : List Value) :
      Rewrites "over" (b :: a :: rest) (a :: b :: a :: rest)
  | dropSecond (a b : Value) (rest : List Value) : Rewrites "nip" (b :: a :: rest) (b :: rest)
  | copyBelow (a b : Value) (rest : List Value) :
      Rewrites "tuck" (b :: a :: rest) (b :: a :: b :: rest)
  | pushTrue (rest : List Value) : Rewrites "true" rest (.boolean true :: rest)
  | pushFalse (rest : List Value) : Rewrites "false" rest (.boolean false :: rest)
  | complement (a : Bool) (rest : List Value) :
      Rewrites "not" (.boolean a :: rest) (.boolean (!a) :: rest)
  | conjunction (a b : Bool) (rest : List Value) :
      Rewrites "and" (.boolean b :: .boolean a :: rest) (.boolean (a && b) :: rest)
  | disjunction (a b : Bool) (rest : List Value) :
      Rewrites "or" (.boolean b :: .boolean a :: rest) (.boolean (a || b) :: rest)
  | negation (a : Int64) (rest : List Value) :
      Rewrites "negate" (.integer a :: rest) (.integer (.ofInt (-a.toInt)) :: rest)
  | successor (a : Int64) (rest : List Value) :
      Rewrites "increment" (.integer a :: rest) (.integer (.ofInt (a.toInt + 1)) :: rest)
  | predecessor (a : Int64) (rest : List Value) :
      Rewrites "decrement" (.integer a :: rest) (.integer (.ofInt (a.toInt - 1)) :: rest)
  | square (a : Int64) (rest : List Value) :
      Rewrites "square" (.integer a :: rest) (.integer (.ofInt (a.toInt * a.toInt)) :: rest)

/-- The word of a name runs a quotation if the boolean below it has the given value.  The place is
that of the call of `if` in the word. -/
inductive Guards : String → Bool → Location → Prop
  | ifTrue : Guards "when" true ⟨1, 4⟩
  | ifFalse : Guards "unless" false ⟨1, 9⟩

variable {m n k : Machine} {l : Location} {ts : List Token} {rest values : List Value} {room : Nat}

theorem Obeys.zero (hd : m.dictionary.KeepsStandard) (hstack : m.stack = ⟨values, room + 1⟩)
    (h : (m.withStack ⟨.integer 0 :: values, room⟩).Obeys ts n) :
    m.Obeys (⟨l, .call "0"⟩ :: ts) n :=
  .number hd.zero rfl hstack h

theorem Obeys.one (hd : m.dictionary.KeepsStandard) (hstack : m.stack = ⟨values, room + 1⟩)
    (h : (m.withStack ⟨.integer 1 :: values, room⟩).Obeys ts n) :
    m.Obeys (⟨l, .call "1"⟩ :: ts) n :=
  .number hd.one rfl hstack h

theorem Obeys.operate {name : String} {op : Operation} {s t : Stack}
    (hd : m.dictionary.KeepsStandard)
    (hname : Library.standard.action? name = some (.primitive (.operate op)))
    (hstack : m.stack = s) (happly : s.apply op = .done t) (h : (m.withStack t).Obeys ts n) :
    m.Obeys (⟨l, .call name⟩ :: ts) n := by
  refine .call (hd.action?_eq hname) ?_ h
  rw [Action.perform, Primitive.perform, hstack, happly]
  rfl

theorem Obeys.word {name body : String} (hd : m.dictionary.KeepsStandard)
    (hname : Library.standard.action? name = some (.script body))
    (hbody : m.SourceEnds (.ofText body) .done k) (h : k.Obeys ts n) :
    m.Obeys (⟨l, .call name⟩ :: ts) n :=
  .enter (hd.action?_eq hname) rfl hbody h

theorem perform_choose {code otherwise : String} {b : Bool}
    (hstack : m.stack = ⟨.quotation otherwise :: .quotation code :: .boolean b :: values, room⟩) :
    (Action.primitive .choose).perform m =
      .enter (if b then code else otherwise) (m.withStack ⟨values, room + 3⟩) := by
  simp only [Action.perform, Primitive.perform, performChoose, taking, Stack.popQuotation,
    Stack.popBoolean, Stack.popAs, hstack, withStack]

theorem meaning_choose {code otherwise : String} {b : Bool} (hd : m.dictionary.KeepsStandard)
    (hstack : m.stack = ⟨.quotation otherwise :: .quotation code :: .boolean b :: values, room⟩) :
    m.meaning ⟨l, .call "if"⟩ = (⟨l, some "if"⟩,
      .enter (if b then code else otherwise) (m.withStack ⟨values, room + 3⟩)) := by
  have hname : m.dictionary.action? "if" = some (.primitive .choose) := hd.action?_eq rfl
  rw [meaning_call hname, perform_choose hstack]

theorem Obeys.choose {code otherwise : String} {b : Bool} (hd : m.dictionary.KeepsStandard)
    (hstack : m.stack = ⟨.quotation otherwise :: .quotation code :: .boolean b :: values, room⟩)
    (hcode : (m.withStack ⟨values, room + 3⟩).SourceEnds
      (.ofText (if b then code else otherwise)) .done k) (h : k.Obeys ts n) :
    m.Obeys (⟨l, .call "if"⟩ :: ts) n :=
  .enter (hd.action?_eq rfl) (perform_choose hstack) hcode h

theorem sourceEnds_withStack {source : Source} {last : Location} {t : Stack}
    (hm : m.depth < m.maxNesting)
    (htokens : (Cursor.ofSource source).tokens = (ts ++ [⟨last, .endOfInput⟩], none))
    (h : m.opened.Obeys ts (m.opened.withStack t)) :
    m.SourceEnds source .done (m.withStack t) :=
  sourceEnds_of_obeys hm htokens h

theorem sourceEnds_empty_iff {v : Verdict} (hm : m.depth < m.maxNesting) :
    m.SourceEnds (.ofText "") v n ↔ v = .done ∧ n = m := by
  have htokens : (Cursor.ofSource (.ofText "")).tokens = ([⟨⟨1, 1⟩, .endOfInput⟩], none) := rfl
  rw [sourceEnds_iff_tokensEnd hm, htokens]
  exact Progress.tokensEnd_endOfInput_iff rfl

theorem sourceEnds_dup {a : Value} (hd : m.dictionary.KeepsStandard)
    (hm : m.depth < m.maxNesting) (hstack : m.stack = ⟨a :: rest, room + 1⟩) :
    m.SourceEnds (.ofText "0 pick") .done (m.withStack ⟨a :: a :: rest, room⟩) := by
  have htokens : (Cursor.ofSource (.ofText "0 pick")).tokens =
      ([⟨⟨1, 1⟩, .call "0"⟩, ⟨⟨1, 3⟩, .call "pick"⟩] ++ [⟨⟨1, 7⟩, .endOfInput⟩], none) := rfl
  exact sourceEnds_withStack hm htokens (.zero hd hstack (.operate hd rfl rfl rfl .nil))

theorem sourceEnds_one_operate {source : Source} {name : String} {op : Operation} {t : Stack}
    {l' last : Location} (hd : m.dictionary.KeepsStandard) (hm : m.depth < m.maxNesting)
    (htokens : (Cursor.ofSource source).tokens =
      ([⟨l, .call "1"⟩, ⟨l', .call name⟩] ++ [⟨last, .endOfInput⟩], none))
    (hname : Library.standard.action? name = some (.primitive (.operate op)))
    (hstack : m.stack = ⟨values, room + 1⟩)
    (happly : Stack.apply ⟨.integer 1 :: values, room⟩ op = .done t) :
    m.SourceEnds source .done (m.withStack t) :=
  sourceEnds_withStack hm htokens (.one hd hstack (.operate hd hname rfl happly .nil))

theorem sourceEnds_over {a b : Value} (hd : m.dictionary.KeepsStandard)
    (hm : m.depth < m.maxNesting) (hstack : m.stack = ⟨b :: a :: rest, room + 1⟩) :
    m.SourceEnds (.ofText "1 pick") .done (m.withStack ⟨a :: b :: a :: rest, room⟩) := by
  have htokens : (Cursor.ofSource (.ofText "1 pick")).tokens =
      ([⟨⟨1, 1⟩, .call "1"⟩, ⟨⟨1, 3⟩, .call "pick"⟩] ++ [⟨⟨1, 7⟩, .endOfInput⟩], none) := rfl
  exact sourceEnds_one_operate hd hm htokens rfl hstack rfl

theorem sourceEnds_nip {a b : Value} (hd : m.dictionary.KeepsStandard)
    (hm : m.depth < m.maxNesting) (hstack : m.stack = ⟨b :: a :: rest, room⟩) :
    m.SourceEnds (.ofText "swap drop") .done (m.withStack ⟨b :: rest, room + 1⟩) := by
  have htokens : (Cursor.ofSource (.ofText "swap drop")).tokens =
      ([⟨⟨1, 1⟩, .call "swap"⟩, ⟨⟨1, 6⟩, .call "drop"⟩] ++ [⟨⟨1, 10⟩, .endOfInput⟩], none) := rfl
  exact sourceEnds_withStack hm htokens
    (.operate hd rfl hstack rfl (.operate hd rfl rfl rfl .nil))

theorem sourceEnds_tuck {a b : Value} (hd : m.dictionary.KeepsStandard)
    (hm : m.depth < m.maxNesting) (hstack : m.stack = ⟨b :: a :: rest, room + 1⟩) :
    m.SourceEnds (.ofText "swap 1 pick") .done (m.withStack ⟨b :: a :: b :: rest, room⟩) := by
  have htokens : (Cursor.ofSource (.ofText "swap 1 pick")).tokens =
      ([⟨⟨1, 1⟩, .call "swap"⟩, ⟨⟨1, 6⟩, .call "1"⟩, ⟨⟨1, 8⟩, .call "pick"⟩] ++
        [⟨⟨1, 12⟩, .endOfInput⟩], none) := rfl
  exact sourceEnds_withStack hm htokens
    (.operate hd rfl hstack rfl (.one hd rfl (.operate hd rfl rfl rfl .nil)))

theorem sourceEnds_not (a : Bool) (hd : m.dictionary.KeepsStandard) (hm : m.depth < m.maxNesting)
    (hstack : m.stack = ⟨.boolean a :: rest, room⟩) :
    m.SourceEnds (.ofText "invert") .done (m.withStack ⟨.boolean (!a) :: rest, room⟩) := by
  have htokens : (Cursor.ofSource (.ofText "invert")).tokens =
      ([⟨⟨1, 1⟩, .call "invert"⟩] ++ [⟨⟨1, 7⟩, .endOfInput⟩], none) := rfl
  exact sourceEnds_withStack hm htokens (.operate hd rfl hstack rfl .nil)

theorem sourceEnds_negate (a : Int64) (hd : m.dictionary.KeepsStandard)
    (hm : m.depth < m.maxNesting) (hstack : m.stack = ⟨.integer a :: rest, room + 1⟩) :
    m.SourceEnds (.ofText "0 swap subtract") .done
      (m.withStack ⟨.integer (0 - a) :: rest, room + 1⟩) := by
  have htokens : (Cursor.ofSource (.ofText "0 swap subtract")).tokens =
      ([⟨⟨1, 1⟩, .call "0"⟩, ⟨⟨1, 3⟩, .call "swap"⟩, ⟨⟨1, 8⟩, .call "subtract"⟩] ++
        [⟨⟨1, 16⟩, .endOfInput⟩], none) := rfl
  exact sourceEnds_withStack hm htokens
    (.zero hd hstack (.operate hd rfl rfl rfl (.operate hd rfl rfl rfl .nil)))

theorem sourceEnds_increment (a : Int64) (hd : m.dictionary.KeepsStandard)
    (hm : m.depth < m.maxNesting) (hstack : m.stack = ⟨.integer a :: rest, room + 1⟩) :
    m.SourceEnds (.ofText "1 add") .done (m.withStack ⟨.integer (a + 1) :: rest, room + 1⟩) := by
  have htokens : (Cursor.ofSource (.ofText "1 add")).tokens =
      ([⟨⟨1, 1⟩, .call "1"⟩, ⟨⟨1, 3⟩, .call "add"⟩] ++ [⟨⟨1, 6⟩, .endOfInput⟩], none) := rfl
  exact sourceEnds_one_operate hd hm htokens rfl hstack rfl

theorem sourceEnds_decrement (a : Int64) (hd : m.dictionary.KeepsStandard)
    (hm : m.depth < m.maxNesting) (hstack : m.stack = ⟨.integer a :: rest, room + 1⟩) :
    m.SourceEnds (.ofText "1 subtract") .done
      (m.withStack ⟨.integer (a - 1) :: rest, room + 1⟩) := by
  have htokens : (Cursor.ofSource (.ofText "1 subtract")).tokens =
      ([⟨⟨1, 1⟩, .call "1"⟩, ⟨⟨1, 3⟩, .call "subtract"⟩] ++ [⟨⟨1, 11⟩, .endOfInput⟩], none) := rfl
  exact sourceEnds_one_operate hd hm htokens rfl hstack rfl

theorem sourceEnds_square (a : Int64) (hd : m.dictionary.KeepsStandard)
    (hm : m.depth + 2 ≤ m.maxNesting) (hstack : m.stack = ⟨.integer a :: rest, room + 1⟩) :
    m.SourceEnds (.ofText "dup multiply") .done
      (m.withStack ⟨.integer (a * a) :: rest, room + 1⟩) := by
  have htokens : (Cursor.ofSource (.ofText "dup multiply")).tokens =
      ([⟨⟨1, 1⟩, .call "dup"⟩, ⟨⟨1, 5⟩, .call "multiply"⟩] ++ [⟨⟨1, 13⟩, .endOfInput⟩], none) := rfl
  have hdup := sourceEnds_dup (m := m.opened) hd hm hstack
  exact sourceEnds_withStack (Nat.lt_of_succ_lt hm) htokens
    (.word hd rfl hdup (.operate hd rfl rfl rfl .nil))

theorem sourceEnds_false (hd : m.dictionary.KeepsStandard) (hm : m.depth + 2 ≤ m.maxNesting)
    (hstack : m.stack = ⟨rest, room + 2⟩) :
    m.SourceEnds (.ofText "true invert") .done
      (m.withStack ⟨.boolean false :: rest, room + 1⟩) := by
  have htokens : (Cursor.ofSource (.ofText "true invert")).tokens =
      ([⟨⟨1, 1⟩, .call "true"⟩, ⟨⟨1, 6⟩, .call "invert"⟩] ++
        [⟨⟨1, 12⟩, .endOfInput⟩], none) := rfl
  have htrue := sourceEnds_true (m := m.opened) hm hd.zero (hd.action?_eq rfl) hstack
  exact sourceEnds_withStack (Nat.lt_of_succ_lt hm) htokens
    (.word hd rfl htrue (.operate hd rfl rfl rfl .nil))

theorem sourceEnds_drop_boolean {a : Value} (b : Bool) (hd : m.dictionary.KeepsStandard)
    (hm : m.depth + 3 ≤ m.maxNesting) (hstack : m.stack = ⟨a :: rest, room + 1⟩) :
    m.SourceEnds (.ofText (if b then "drop true" else "drop false")) .done
      (m.withStack ⟨.boolean b :: rest, room + 1⟩) := by
  have hone : m.depth < m.maxNesting := by omega
  let k := m.opened.withStack ⟨rest, room + 2⟩
  have hlimit : k.depth + 2 ≤ k.maxNesting := hm
  cases b with
  | false =>
    have htokens : (Cursor.ofSource (.ofText "drop false")).tokens =
        ([⟨⟨1, 1⟩, .call "drop"⟩, ⟨⟨1, 6⟩, .call "false"⟩] ++ [⟨⟨1, 11⟩, .endOfInput⟩], none) := rfl
    have hfalse := sourceEnds_false (m := k) hd hlimit rfl
    exact sourceEnds_withStack hone htokens (.operate hd rfl hstack rfl (.word hd rfl hfalse .nil))
  | true =>
    have htokens : (Cursor.ofSource (.ofText "drop true")).tokens =
        ([⟨⟨1, 1⟩, .call "drop"⟩, ⟨⟨1, 6⟩, .call "true"⟩] ++ [⟨⟨1, 10⟩, .endOfInput⟩], none) := rfl
    have htrue := sourceEnds_true (m := k) (Nat.lt_of_succ_lt hlimit) hd.zero
      (hd.action?_eq rfl) rfl
    exact sourceEnds_withStack hone htokens (.operate hd rfl hstack rfl (.word hd rfl htrue .nil))

theorem sourceEnds_choice {source : Source} {code otherwise : String} {b : Bool} {t : Stack}
    {l' l'' last : Location} (hd : m.dictionary.KeepsStandard) (hm : m.depth < m.maxNesting)
    (htokens : (Cursor.ofSource source).tokens =
      ([⟨l, .quotation code⟩, ⟨l', .quotation otherwise⟩, ⟨l'', .call "if"⟩] ++
        [⟨last, .endOfInput⟩], none))
    (hstack : m.stack = ⟨.boolean b :: values, room + 2⟩)
    (hchosen : (m.opened.withStack ⟨values, room + 3⟩).SourceEnds
      (.ofText (if b then code else otherwise)) .done (m.opened.withStack t)) :
    m.SourceEnds source .done (m.withStack t) :=
  sourceEnds_withStack hm htokens
    (.literal rfl hstack (.literal rfl rfl (.choose hd rfl hchosen .nil)))

/-- A boolean puts itself in the place of the one below, or leaves that one alone. -/
theorem sourceEnds_junction {source : Source} {a b : Bool} (c : Bool) {l' l'' last : Location}
    (hd : m.dictionary.KeepsStandard) (hm : m.depth + 4 ≤ m.maxNesting)
    (htokens : (Cursor.ofSource source).tokens =
      ([⟨l, .quotation (if c then "drop true" else "")⟩,
        ⟨l', .quotation (if c then "" else "drop false")⟩, ⟨l'', .call "if"⟩] ++
        [⟨last, .endOfInput⟩], none))
    (hstack : m.stack = ⟨.boolean b :: .boolean a :: rest, room + 2⟩) :
    m.SourceEnds source .done
      (m.withStack ⟨.boolean (if b = c then c else a) :: rest, room + 3⟩) := by
  have hone : m.depth < m.maxNesting := by omega
  refine sourceEnds_choice hd hone htokens hstack ?_
  by_cases hb : b = c
  · have hcode : (if b then (if c then "drop true" else "") else if c then "" else "drop false") =
        if c then "drop true" else "drop false" := by
      rw [hb]
      cases c <;> rfl
    rw [hcode, if_pos hb]
    exact sourceEnds_drop_boolean c hd hm rfl
  · have hcode : (if b then (if c then "drop true" else "") else if c then "" else "drop false") =
        "" := by
      cases b <;> cases c <;> simp at hb ⊢
    let k := m.opened.withStack ⟨.boolean a :: rest, room + 3⟩
    have hk : k.depth < k.maxNesting := by
      show m.depth + 1 < m.maxNesting
      omega
    rw [hcode, if_neg hb]
    exact (sourceEnds_empty_iff hk).mpr ⟨rfl, rfl⟩

theorem sourceEnds_and (a b : Bool) (hd : m.dictionary.KeepsStandard)
    (hm : m.depth + 4 ≤ m.maxNesting)
    (hstack : m.stack = ⟨.boolean b :: .boolean a :: rest, room + 2⟩) :
    m.SourceEnds (.ofText "[] [drop false] if") .done
      (m.withStack ⟨.boolean (a && b) :: rest, room + 3⟩) := by
  have htokens : (Cursor.ofSource (.ofText "[] [drop false] if")).tokens =
      ([⟨⟨1, 1⟩, .quotation ""⟩, ⟨⟨1, 4⟩, .quotation "drop false"⟩, ⟨⟨1, 17⟩, .call "if"⟩] ++
        [⟨⟨1, 19⟩, .endOfInput⟩], none) := rfl
  have hvalue : (a && b) = if b = false then false else a := by cases b <;> simp
  rw [hvalue]
  exact sourceEnds_junction false hd hm htokens hstack

theorem sourceEnds_or (a b : Bool) (hd : m.dictionary.KeepsStandard)
    (hm : m.depth + 4 ≤ m.maxNesting)
    (hstack : m.stack = ⟨.boolean b :: .boolean a :: rest, room + 2⟩) :
    m.SourceEnds (.ofText "[drop true] [] if") .done
      (m.withStack ⟨.boolean (a || b) :: rest, room + 3⟩) := by
  have htokens : (Cursor.ofSource (.ofText "[drop true] [] if")).tokens =
      ([⟨⟨1, 1⟩, .quotation "drop true"⟩, ⟨⟨1, 13⟩, .quotation ""⟩, ⟨⟨1, 16⟩, .call "if"⟩] ++
        [⟨⟨1, 18⟩, .endOfInput⟩], none) := rfl
  have hvalue : (a || b) = if b = true then true else a := by cases b <;> simp
  rw [hvalue]
  exact sourceEnds_junction true hd hm htokens hstack

theorem exists_sourceEnds_of_rewrites {name : String} {before after : List Value}
    (h : Rewrites name before after) (hd : m.dictionary.KeepsStandard)
    (hm : m.depth + 4 ≤ m.maxNesting) (hstack : m.stack = ⟨before, room + 2⟩) :
    ∃ body free, Library.standard.action? name = some (.script body) ∧
      m.SourceEnds (.ofText body) .done (m.withStack ⟨after, free⟩) := by
  have hone : m.depth < m.maxNesting := by omega
  have htwo : m.depth + 2 ≤ m.maxNesting := by omega
  cases h with
  | copyTop a rest => exact ⟨_, _, rfl, sourceEnds_dup hd hone hstack⟩
  | copySecond a b rest => exact ⟨_, _, rfl, sourceEnds_over hd hone hstack⟩
  | dropSecond a b rest => exact ⟨_, _, rfl, sourceEnds_nip hd hone hstack⟩
  | copyBelow a b rest => exact ⟨_, _, rfl, sourceEnds_tuck hd hone hstack⟩
  | pushTrue rest =>
    exact ⟨_, _, rfl, sourceEnds_true hone hd.zero (hd.action?_eq rfl) hstack⟩
  | pushFalse rest => exact ⟨_, _, rfl, sourceEnds_false hd htwo hstack⟩
  | complement a rest => exact ⟨_, _, rfl, sourceEnds_not a hd hone hstack⟩
  | conjunction a b rest => exact ⟨_, _, rfl, sourceEnds_and a b hd hm hstack⟩
  | disjunction a b rest => exact ⟨_, _, rfl, sourceEnds_or a b hd hm hstack⟩
  | negation a rest =>
    rw [Int64.ofInt_neg, Int64.ofInt_toInt, ← Int64.zero_sub]
    exact ⟨_, _, rfl, sourceEnds_negate a hd hone hstack⟩
  | successor a rest =>
    rw [Int64.ofInt_add, Int64.ofInt_toInt]
    exact ⟨_, _, rfl, sourceEnds_increment a hd hone hstack⟩
  | predecessor a rest =>
    rw [Int64.ofInt_sub, Int64.ofInt_toInt]
    exact ⟨_, _, rfl, sourceEnds_decrement a hd hone hstack⟩
  | square a rest =>
    rw [Int64.ofInt_mul, Int64.ofInt_toInt]
    exact ⟨_, _, rfl, sourceEnds_square a hd htwo hstack⟩

theorem ends_obey_of_rewrites {name : String} {before after : List Value}
    (h : Rewrites name before after) (hd : m.dictionary.KeepsStandard)
    (hm : m.depth + 4 ≤ m.maxNesting) (hstack : m.stack = ⟨before, room + 2⟩) (l : Location) :
    (m.obey [] ⟨l, .call name⟩).Ends .done
      (m.withStack ⟨after, m.stack.capacity - after.length⟩) := by
  obtain ⟨body, free, hname, hbody⟩ := exists_sourceEnds_of_rewrites h hd hm hstack
  have hcapacity : after.length + free = m.stack.capacity := (hbody.evolves rfl).capacity
  rw [← hcapacity, Nat.add_sub_cancel_left, obey, meaning_call (hd.action?_eq hname)]
  exact ends_enter_iff.mpr ⟨.done, hbody, rfl⟩

private theorem exists_guarded_obeys {name q : String} {runs b : Bool} {place : Location}
    (h : Guards name runs place) (hd : m.dictionary.KeepsStandard)
    (hstack : m.stack = ⟨.quotation q :: .boolean b :: rest, room + 1⟩) :
    ∃ body ts last k, Library.standard.action? name = some (.script body) ∧
      (Cursor.ofSource (.ofText body)).tokens =
        (ts ++ [⟨place, .call "if"⟩, ⟨last, .endOfInput⟩], none) ∧
      m.opened.Obeys ts k ∧
      k.meaning ⟨place, .call "if"⟩ = (⟨place, some "if"⟩,
        .enter (if b = runs then q else "") (m.opened.withStack ⟨rest, room + 3⟩)) := by
  cases h with
  | ifTrue =>
    have htokens : (Cursor.ofSource (.ofText "[] if")).tokens =
        ([⟨⟨1, 1⟩, .quotation ""⟩] ++ [⟨⟨1, 4⟩, .call "if"⟩, ⟨⟨1, 6⟩, .endOfInput⟩], none) := rfl
    exact ⟨_, _, _, _, rfl, htokens, .literal rfl hstack .nil, meaning_choose hd rfl⟩
  | ifFalse =>
    have htokens : (Cursor.ofSource (.ofText "[] swap if")).tokens =
        ([⟨⟨1, 1⟩, .quotation ""⟩, ⟨⟨1, 4⟩, .call "swap"⟩] ++
          [⟨⟨1, 9⟩, .call "if"⟩, ⟨⟨1, 11⟩, .endOfInput⟩], none) := rfl
    refine ⟨_, _, _, _, rfl, htokens, .literal rfl hstack (.operate hd rfl rfl rfl .nil), ?_⟩
    have hchoice : (if b = false then q else "") = if b then "" else q := by cases b <;> rfl
    rw [hchoice]
    exact meaning_choose hd rfl

theorem ends_obey_of_guards_iff {name q : String} {runs b : Bool} {place : Location} {v : Verdict}
    (h : Guards name runs place) (hd : m.dictionary.KeepsStandard) (hm : m.depth < m.maxNesting)
    (hstack : m.stack = ⟨.quotation q :: .boolean b :: rest, room + 1⟩) :
    (m.obey [] ⟨l, .call name⟩).Ends v n ↔
      ∃ w k, (m.opened.withStack ⟨rest, room + 3⟩).SourceEnds
          (.ofText (if b = runs then q else "")) w k ∧
        v = (w.within ⟨place, some "if"⟩).within ⟨l, some name⟩ ∧
        n = if w.returns then k.closed else k := by
  obtain ⟨body, ts, last, j, hname, htokens, hobeys, hmeaning⟩ := exists_guarded_obeys h hd hstack
  rw [obey, meaning_call (hd.action?_eq hname)]
  simp only [Action.perform, ends_enter_iff, sourceEnds_iff_of_enter hm htokens hobeys hmeaning]
  constructor
  · intro h
    obtain ⟨u, ⟨w, k, hw, rfl, hn⟩, hv⟩ := h
    exact ⟨w, k, hw, hv, hn⟩
  · intro h
    obtain ⟨w, k, hw, hv, hn⟩ := h
    exact ⟨_, ⟨w, k, hw, rfl, hn⟩, hv⟩

theorem dictionary_of_full {s : Settings} {fuel : Nat} (h : full fuel s = (.done, m))
    (hcapacity : 2 ≤ (bare s).stack.capacity) : m.dictionary = Library.standard := by
  obtain ⟨fuel', hfull⟩ := exists_full_eq hcapacity (maxNesting_bare_pos s)
  have hsame := (Progress.ends_of_run h (by simp)).unique (Progress.ends_of_run hfull (by simp))
  rw [hsame.2]

end Machine

namespace Progress

theorem Later.action?_of_standard {s : Machine.Settings} {fuel : Nat} {m : Machine} {p : Progress}
    (hfull : Machine.full fuel s = (.done, m)) (hp : Later (.halted .done m) p)
    (hcapacity : 2 ≤ p.machine.stack.capacity) {name : String} {action : Action}
    (hname : Library.standard.action? name = some action) :
    p.machine.dictionary.action? name = some action := by
  have hreachable : p.Reachable s := ⟨m, .full hfull, hp⟩
  have hbare : p.machine.stack.capacity = (Machine.bare s).stack.capacity :=
    hreachable.later_bare.follows.capacity
  have hgrows : m.dictionary.Grows p.machine.dictionary := hp.follows.dictionary
  rw [Machine.dictionary_of_full hfull (hbare ▸ hcapacity)] at hgrows
  obtain ⟨w, hfind, rfl⟩ := Option.map_eq_some_iff.mp hname
  rw [Dictionary.action?, hgrows.find?_eq_some hreachable.distinct hfind]
  rfl

theorem Later.keepsStandard {s : Machine.Settings} {fuel : Nat} {m : Machine} {p : Progress}
    (hfull : Machine.full fuel s = (.done, m)) (hp : Later (.halted .done m) p)
    (hcapacity : 2 ≤ p.machine.stack.capacity)
    (hzero : p.machine.dictionary.find? "0" = none)
    (hone : p.machine.dictionary.find? "1" = none) : p.machine.dictionary.KeepsStandard where
  action?_eq := hp.action?_of_standard hfull hcapacity
  zero := Option.map_eq_none_iff.mpr hzero
  one := Option.map_eq_none_iff.mpr hone

/-- In a full machine, whatever it has run, as long as `0` and `1` are numbers, there are two free
places on the stack and four more texts may be running, each standard word does what it is
documented to do with the values on the stack, and nothing else.  A guard runs the quotation on the
stack, in a machine without it and the boolean below it, or takes the two off and is done. -/
theorem standard_words_keep_meaning {s : Machine.Settings} {fuel : Nat} {m : Machine}
    {p : Progress} (hfull : Machine.full fuel s = (.done, m)) (hp : Later (.halted .done m) p)
    (hzero : p.machine.dictionary.find? "0" = none)
    (hone : p.machine.dictionary.find? "1" = none) (hroom : 2 ≤ p.machine.stack.room)
    (hlevels : p.machine.depth + 4 ≤ p.machine.maxNesting) (l : Location) :
    (∀ name after, Machine.Rewrites name p.machine.stack.values after →
      (p.machine.obey [] ⟨l, .call name⟩).Ends .done
        (p.machine.withStack ⟨after, p.machine.stack.capacity - after.length⟩)) ∧
    ∀ name runs place q b rest, Machine.Guards name runs place →
      p.machine.stack.values = .quotation q :: .boolean b :: rest →
      ∀ v n, (p.machine.obey [] ⟨l, .call name⟩).Ends v n ↔
        if b = runs then
          ∃ w k,
            (p.machine.withStack ⟨rest, p.machine.stack.room + 2⟩).opened.SourceEnds
              (.ofText q) w k ∧
            v = (w.within ⟨place, some "if"⟩).within ⟨l, some name⟩ ∧
            n = if w.returns then k.closed else k
        else v = .done ∧ n = p.machine.withStack ⟨rest, p.machine.stack.room + 2⟩ := by
  have hcapacity : 2 ≤ p.machine.stack.capacity :=
    Nat.le_trans hroom (Nat.le_add_left _ _)
  have hd := hp.keepsStandard hfull hcapacity hzero hone
  obtain ⟨room, hroom⟩ := Nat.exists_eq_add_of_le' hroom
  constructor
  · intro name after h
    apply Machine.ends_obey_of_rewrites h hd hlevels
    rw [← hroom]
  · intro name runs place q b rest h hvalues v n
    have hstack : p.machine.stack = ⟨.quotation q :: .boolean b :: rest, room + 1 + 1⟩ := by
      rw [← hvalues, ← hroom]
    have hlimit : p.machine.depth < p.machine.maxNesting := by omega
    rw [Machine.ends_obey_of_guards_iff h hd hlimit hstack, hroom]
    by_cases hb : b = runs
    · simp only [hb, if_true]
      exact Iff.rfl
    · have hempty : (p.machine.opened.withStack ⟨rest, room + 1 + 3⟩).depth <
          (p.machine.opened.withStack ⟨rest, room + 1 + 3⟩).maxNesting := by
        show p.machine.depth + 1 < p.machine.maxNesting
        omega
      simp only [hb, if_false, Machine.sourceEnds_empty_iff hempty]
      constructor
      · intro h
        obtain ⟨w, k, ⟨rfl, rfl⟩, hv, hn⟩ := h
        exact ⟨hv, hn⟩
      · intro h
        exact ⟨.done, _, ⟨rfl, rfl⟩, h.1, h.2⟩

/-- The largest integer is followed by the smallest one. -/
theorem increment_wraps_around :
    ∃ (fuel : Nat) (m : Machine), Machine.full fuel { capacity := 3 } = (.done, m) ∧
      let n := m.withStack ⟨[.integer Int64.maxValue], 2⟩
      (n.obey [] ⟨.start, .call "increment"⟩).Ends .done
        (n.withStack ⟨[.integer Int64.minValue], 2⟩) := by
  obtain ⟨fuel, hfull⟩ := Machine.exists_full_eq (s := { capacity := 3 }) (by decide) (by decide)
  refine ⟨fuel, _, hfull, ?_⟩
  intro n
  have hlater : Later (.halted .done { Machine.bare { capacity := 3 } with
      dictionary := Library.standard }) (.halted .done n) :=
    later_of_request (r := .push (.integer Int64.maxValue)) rfl Relation.ReflTransGen.refl
  have hwords := standard_words_keep_meaning hfull hlater (by decide) (by decide) (by decide)
    (by decide) .start
  have hnext : Int64.ofInt (Int64.maxValue.toInt + 1) = Int64.minValue := by decide
  have hincrement := hwords.1 "increment" _ (.successor Int64.maxValue [])
  rw [hnext] at hincrement
  exact hincrement

end Progress

end StackScript
