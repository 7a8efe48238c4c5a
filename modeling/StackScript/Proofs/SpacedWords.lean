import StackScript.Proofs.CallableNames
/-!
# Words with spaces between them

A source is often made of some texts with a space between each two of them.  If each text reads as
one token, these are the tokens of the source (`Cursor.exists_tokens_spaced`).  What the source does
is then said by their forms alone, whatever their places are (`Machine.Does`).
-/

namespace StackScript

/-- The text is one item of this form wherever a word may end behind it. -/
def Reads (text : String) (form : Form) : Prop :=
  ∀ after, EndsWord after → Item after (Utf8.encode text) form

instance (name : String) : Decidable (Callable name) :=
  decidable_of_iff
    (((Utf8.encode name).head?.any fun b => 33 ≤ b ∧ b ≤ 126 ∧
        b ∉ [Mark.openBracket, Mark.closeBracket, Mark.openParenthesis, Mark.quote, Mark.star]) &&
      name.toList.all fun c => c ∉ [' ', '\t', '\n'])
    (by
      rcases h : Utf8.encode name with _ | ⟨b, rest⟩ <;> simp [Callable, h, and_assoc])

theorem Callable.reads {name : String} (h : Callable name) : Reads name (.call name) :=
  fun _ hafter => h.item hafter

theorem Bracketed.reads {code : String} (h : Bracketed code) :
    Reads ("[" ++ code ++ "]") (.quotation code) :=
  fun after _ => item_quotation h after

theorem bracketed_of_not_mem {text : String} (hopening : '[' ∉ text.toList)
    (hclosing : ']' ∉ text.toList) : Bracketed text := by
  constructor
  · intro before hbefore
    rw [List.count_eq_zero.mpr fun h => hclosing (hbefore.subset h)]
    exact Nat.zero_le _
  · rw [List.count_eq_zero.mpr hopening, List.count_eq_zero.mpr hclosing]

/-- The texts with a space between each two of them. -/
def spaced (texts : List String) : String :=
  " ".intercalate texts

theorem encode_spaced_cons (text next : String) (texts : List String) :
    Utf8.encode (spaced (text :: next :: texts)) =
      Utf8.encode text ++ 32 :: Utf8.encode (spaced (next :: texts)) := by
  rw [spaced, String.intercalate_cons_cons, Utf8.encode_append, Utf8.encode_append,
    List.append_assoc]
  rfl

def Part.forms : List Part → List Form
  | [] => []
  | .blank _ :: parts => Part.forms parts
  | .item _ form :: parts => form :: Part.forms parts

theorem Part.exists_tokens_eq (before : List UInt8) (parts : List Part) :
    ∃ ts last, Part.tokens before parts = ts ++ [⟨last, .endOfInput⟩] ∧
      ts.map Token.form = Part.forms parts := by
  induction parts generalizing before with
  | nil => exact ⟨[], _, rfl, rfl⟩
  | cons part parts ih =>
    cases part with
    | blank b => exact ih _
    | item bytes form =>
      obtain ⟨ts, last, htokens, hforms⟩ := ih (before ++ bytes)
      exact ⟨⟨.behind before, form⟩ :: ts, last, congrArg _ htokens, congrArg _ hforms⟩

theorem exists_cuts_spaced {texts : List String} {forms : List Form}
    (h : List.Forall₂ Reads texts forms) :
    ∃ parts, Cuts (Utf8.encode (spaced texts)) parts ∧ Part.forms parts = forms := by
  induction h with
  | nil => exact ⟨[], .nil, rfl⟩
  | @cons text form texts forms htext hrest ih =>
    obtain ⟨parts, hcuts, hforms⟩ := ih
    cases hrest with
    | nil =>
      have hitem := Cuts.item (htext [] (by simp [EndsWord])) .nil
      rw [List.append_nil] at hitem
      refine ⟨[.item (Utf8.encode text) form], ?_, rfl⟩
      rwa [spaced, String.intercalate_singleton]
    | @cons next _ texts _ _ _ =>
      have hblank : Cuts (32 :: Utf8.encode (spaced (next :: texts))) (.blank 32 :: parts) :=
        .blank rfl hcuts
      have hitem := Cuts.item (htext _ (by simp [EndsWord, isBlank])) hblank
      rw [← encode_spaced_cons] at hitem
      exact ⟨_, hitem, congrArg _ hforms⟩

/-- The tokens of texts with spaces between them are those that the texts read as. -/
theorem Cursor.exists_tokens_spaced {texts : List String} {forms : List Form}
    (h : List.Forall₂ Reads texts forms) :
    ∃ ts last, ts.map Token.form = forms ∧
      (Cursor.ofSource (.ofText (spaced texts))).tokens = (ts ++ [⟨last, .endOfInput⟩], none) := by
  obtain ⟨parts, hcuts, rfl⟩ := exists_cuts_spaced h
  obtain ⟨ts, last, htokens, hforms⟩ := Part.exists_tokens_eq [] parts
  have hstart : (Cursor.ofSource (.ofText (spaced texts))).location = .behind [] := rfl
  exact ⟨ts, last, hforms, (Cursor.tokens_eq_iff_cuts rfl hstart _).mpr ⟨parts, hcuts, htokens.symm⟩⟩

namespace Machine

variable {m n k : Machine} {form : Form} {forms : List Form}

/-- Tokens of these forms, wherever they stand, succeed one after the other. -/
def Does (m : Machine) (forms : List Form) (n : Machine) : Prop :=
  ∀ ts : List Token, ts.map Token.form = forms → m.Obeys ts n

theorem Does.nil : m.Does [] m := by
  intro ts hforms
  rw [List.map_eq_nil_iff.mp hforms]
  exact .nil

theorem Does.cons (hform : ∀ l ts, k.Obeys ts n → m.Obeys (⟨l, form⟩ :: ts) n)
    (h : k.Does forms n) : m.Does (form :: forms) n := by
  intro ts hforms
  obtain ⟨t, us, rfl, rfl, hus⟩ := List.map_eq_cons_iff.mp hforms
  exact hform t.location us (h us hus)

variable {name : String} {values : List Value} {room : Nat}

theorem Does.number {i : Int64} (hname : m.dictionary.action? name = none)
    (hparse : Integer.parse name = .ok i) (hstack : m.stack = ⟨values, room + 1⟩)
    (h : (m.withStack ⟨.integer i :: values, room⟩).Does forms n) :
    m.Does (.call name :: forms) n :=
  .cons (fun _ _ => .number hname hparse hstack) h

theorem Does.operate {op : Operation} {s t : Stack}
    (hname : m.dictionary.action? name = some (.primitive (.operate op)))
    (hstack : m.stack = s) (happly : s.apply op = .done t) (h : (m.withStack t).Does forms n) :
    m.Does (.call name :: forms) n := by
  have hperform : (Action.primitive (.operate op)).perform m = .settled (.done (m.withStack t)) := by
    rw [Action.perform, Primitive.perform, hstack, happly]
    rfl
  exact .cons (fun _ _ => .call hname hperform) h

theorem Does.pair {p : Pairing} {a b c : Value}
    (hname : m.dictionary.action? name = some (.primitive (.operate (.pair p))))
    (hstack : m.stack = ⟨b :: a :: values, room⟩) (hresult : p.combine? a b = some (.ok c))
    (h : (m.withStack ⟨c :: values, room + 1⟩).Does forms n) : m.Does (.call name :: forms) n := by
  have happly : (⟨b :: a :: values, room⟩ : Stack).apply (.pair p) =
      .done ⟨c :: values, room + 1⟩ := by
    simp only [Stack.apply, Stack.pair, hresult]
    rfl
  exact .operate hname hstack happly h

/-- A token of this form fails for this cause, wherever it stands. -/
def FailsAt (m : Machine) (form : Form) (cause : Cause) : Prop :=
  ∀ l, ∃ e n, e.cause = cause ∧ (m.obey [] ⟨l, form⟩).Ends (.failed e) n

def Fails (m : Machine) (source : String) (cause : Cause) : Prop :=
  ∃ e n, e.cause = cause ∧ m.SourceEnds (.ofText source) (.failed e) n

theorem FailsAt.literal {v : Value} (hform : form.value? = some v) (hroom : m.stack.room = 0) :
    m.FailsAt form .overflow := by
  intro l
  exact ⟨_, m, rfl, ends_obey_literal_of_full hform hroom⟩

theorem FailsAt.number {i : Int64} (hname : m.dictionary.action? name = none)
    (hparse : Integer.parse name = .ok i) (hroom : m.stack.room = 0) :
    m.FailsAt (.call name) .overflow := by
  intro l
  have hmeaning : m.meaning ⟨l, .call name⟩ = (⟨l, none⟩, .settled (.failed .overflow m)) := by
    rw [meaning_number hname hparse, answer_of_full hroom]
  exact ⟨_, m, rfl, ends_obey_of_meaning_failed hmeaning⟩

theorem FailsAt.enter {code : String} {action : Action} {cause : Cause}
    (hname : m.dictionary.action? name = some action) (heffect : action.perform m = .enter code k)
    (hcode : k.Fails code cause) : m.FailsAt (.call name) cause := by
  intro l
  obtain ⟨e, n, hcause, hends⟩ := hcode
  exact ⟨e.within ⟨l, some name⟩, n, hcause, ends_obey_enter_failed hname heffect hends⟩

theorem FailsAt.turns {action : Action} {last : Effect} {cause : Cause} {e : Error}
    (hname : m.dictionary.action? name = some action) (hturns : (action.perform m).Turns last)
    (hlast : last.Concludes (.failed e) n) (hcause : e.cause = cause) :
    m.FailsAt (.call name) cause := by
  intro l
  exact ⟨e.within ⟨l, some name⟩, n, hcause, ends_obey_of_turns hname hturns hlast⟩

theorem fails_spaced {texts : List String} {others : List Form} {cause : Cause}
    (hm : m.depth < m.maxNesting) (htexts : List.Forall₂ Reads texts (forms ++ form :: others))
    (h : m.opened.Does forms n) (hfails : n.FailsAt form cause) : m.Fails (spaced texts) cause := by
  obtain ⟨ts, last, hforms, htokens⟩ := Cursor.exists_tokens_spaced htexts
  obtain ⟨before, after, rfl, hbefore, hafter⟩ := List.map_eq_append_iff.mp hforms
  obtain ⟨t, rest, rfl, rfl, -⟩ := List.map_eq_cons_iff.mp hafter
  obtain ⟨e, k, hcause, hends⟩ := hfails t.location
  rw [List.append_assoc] at htokens
  exact ⟨e, k.closed, hcause, sourceEnds_of_failed hm htokens (h before hbefore) hends⟩

/-- The source succeeds and leaves these values, and changes nothing but the stack. -/
def Leaves (m : Machine) (source : String) (values : List Value) : Prop :=
  m.SourceEnds (.ofText source) .done (m.withStack ⟨values, m.stack.capacity - values.length⟩)

theorem Leaves.unique {source : String} {values' : List Value} (h : m.Leaves source values)
    (h' : m.Leaves source values') : values = values' := by
  have hsame := Progress.Ends.unique h h'
  exact congrArg (fun n : Machine => n.stack.values) hsame.2

theorem sourceEnds_spaced {texts : List String} {t : Stack} (hm : m.depth < m.maxNesting)
    (htexts : List.Forall₂ Reads texts forms) (h : m.opened.Does forms (m.opened.withStack t)) :
    m.SourceEnds (.ofText (spaced texts)) .done (m.withStack t) := by
  obtain ⟨ts, last, hforms, htokens⟩ := Cursor.exists_tokens_spaced htexts
  exact sourceEnds_of_obeys hm htokens (h ts hforms)

theorem leaves_spaced {texts : List String} (hm : m.depth < m.maxNesting)
    (htexts : List.Forall₂ Reads texts forms)
    (h : m.opened.Does forms (m.opened.withStack ⟨values, room⟩)) :
    m.Leaves (spaced texts) values := by
  have hends := sourceEnds_spaced hm htexts h
  have hcapacity : values.length + room = m.stack.capacity := (hends.evolves rfl).capacity
  rwa [Leaves, ← hcapacity, Nat.add_sub_cancel_left]

theorem reads_calls {names : List String} (h : ∀ name ∈ names, Callable name) :
    List.Forall₂ Reads names (names.map .call) :=
  List.forall₂_map_right_iff.mpr (List.forall₂_same.mpr fun name hname => (h name hname).reads)

theorem leaves_calls {names : List String} (hm : m.depth < m.maxNesting)
    (hnames : ∀ name ∈ names, Callable name)
    (h : m.opened.Does (names.map .call) (m.opened.withStack ⟨values, room⟩)) :
    m.Leaves (spaced names) values :=
  leaves_spaced hm (reads_calls hnames) h

theorem leaves_of_reads {text : String} (hm : m.depth < m.maxNesting) (htext : Reads text form)
    (h : m.opened.Does [form] (m.opened.withStack ⟨values, room⟩)) : m.Leaves text values := by
  have hleaves := leaves_spaced hm (.cons htext .nil) h
  rwa [spaced, String.intercalate_singleton] at hleaves

theorem leaves_operation {op : Operation} (hm : m.depth < m.maxNesting)
    (hcallable : Callable name)
    (hname : m.dictionary.action? name = some (.primitive (.operate op)))
    (happly : m.stack.apply op = .done ⟨values, room⟩) : m.Leaves name values :=
  leaves_of_reads hm hcallable.reads (.operate (m := m.opened) hname rfl happly .nil)

theorem leaves_pair {p : Pairing} {a b c : Value} (hm : m.depth < m.maxNesting)
    (hcallable : Callable name)
    (hname : m.dictionary.action? name = some (.primitive (.operate (.pair p))))
    (hvalues : m.stack.values = b :: a :: values) (hresult : p.combine? a b = some (.ok c)) :
    m.Leaves name (c :: values) := by
  have hstack : m.opened.stack = ⟨b :: a :: values, m.stack.room⟩ := by
    rw [← hvalues]
    rfl
  exact leaves_of_reads hm hcallable.reads (.pair hname hstack hresult .nil)

end Machine

end StackScript
