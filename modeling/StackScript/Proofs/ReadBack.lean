import StackScript.Proofs.Brackets
import StackScript.Proofs.Nesting
import StackScript.Proofs.TokenEffect
/-!
# Quotations that read back

A quotation is shown as its code between brackets.  The code of every quotation that a script can
make, and the body of every word that it can define, has matching brackets (`Machine.Tidy`): it was
read from some source, and no primitive makes or changes code.  So what is shown is read as the same
quotation again.
-/

namespace StackScript

/-- A value that is no quotation, or one whose code has matching brackets. -/
def Value.Tidy (v : Value) : Prop := ∀ code, v = .quotation code → Bracketed code

def Action.body? : Action → Option String
  | .primitive _ => none
  | .script body => some body

def Word.Tidy (w : Word) : Prop := ∀ body, w.action = .script body → Bracketed body

def Stack.Tidy (s : Stack) : Prop := ∀ v ∈ s.values, v.Tidy

/-- All code that a machine holds has matching brackets. -/
structure Machine.Tidy (m : Machine) : Prop where
  stack : m.stack.Tidy
  words : ∀ w ∈ m.dictionary.words, w.Tidy

theorem Value.tidy_of_kind {v : Value} (h : v.kind ≠ .quotation) : v.Tidy := by
  intro code hv
  rw [hv] at h
  exact absurd rfl h

theorem Pairing.kind_of_combine? {p : Pairing} {a b v : Value}
    (h : p.combine? a b = some (.ok v)) : v.kind ≠ .quotation := by
  unfold combine? at h
  split at h
  · cases p with
    | divide | modulo =>
      simp only [onIntegers] at h
      split at h
      · cases h
      · cases h
        simp [Value.kind]
    | _ =>
      cases h
      simp [Value.kind]
  · cases h
    cases p <;> simp [onFloats, Value.kind]
  · cases p <;> cases h <;> simp [Value.kind]
  · cases p <;> cases h
    simp [Value.kind]
  · cases h

theorem Conversion.kind_of_convert? {c : Conversion} {v w : Value} (h : c.convert? v = some w) :
    w.kind ≠ .quotation := by
  unfold convert? at h
  split at h
  case h_6 t =>
    cases h
    unfold integerOfText
    split <;> simp [Value.kind]
  all_goals
    cases h
    try simp [Value.kind]

def Operand.Tidy : (o : Operand) → o.Content → Prop
  | .quotation, code => Bracketed code
  | _, _ => True

def Query.Tidy {α : Type} : Query α → α → Prop
  | .operand o, a => o.Tidy a
  | _, _ => True

def Act.Tidy : Act → Prop
  | .answer v => v.Tidy
  | .define w => w.Tidy
  | _ => True

/-- The last thing leaves tidy code only, if all replies are tidy. -/
def Routine.Tidy : Routine → Prop
  | .act a => a.Tidy
  | .ask q next => ∀ a, q.Tidy a → (next a).Tidy

namespace Routine

private theorem tidy_drawBelow (v : Value) : (drawBelow v).Tidy := by
  have hinteger (i : Int64) : (Act.answer (.integer i)).Tidy :=
    Value.tidy_of_kind (by simp [Value.kind])
  cases v with
  | integer bound =>
    rw [drawBelow]
    split
    · exact fun _ _ => hinteger _
    · trivial
  | float bound => exact fun _ _ => hinteger _
  | _ => trivial

private theorem tidy_writeValue (v : Value) : (writeValue v).Tidy := by
  rw [writeValue]
  cases Machine.writtenText? v <;> trivial

private theorem tidy_waitFor (v : Value) : (waitFor v).Tidy := by
  intro now _
  dsimp only
  cases Machine.waitedUntil? now v <;> trivial

theorem tidy_again (code : String) (count : Int64) : (again code count).Tidy := by
  intro again _
  cases again <;> trivial

theorem tidy_number (name : String) : (number name).Tidy := by
  rw [number]
  cases Integer.parse name with
  | ok i => exact Value.tidy_of_kind (by simp [Value.kind])
  | error _ => trivial

end Routine

/-- A primitive makes no code: it names code that was on the stack, at most. -/
theorem Primitive.tidy_routine (p : Primitive) : p.routine.Tidy := by
  cases p with
  | operate op => trivial
  | run => exact fun _ _ => trivial
  | choose => exact fun _ _ _ _ _ _ => trivial
  | cycle => exact fun _ _ => trivial
  | define =>
    intro body hbody name _ code hcode
    cases hcode
    exact hbody
  | random => exact fun v _ => Routine.tidy_drawBelow v
  | write => exact fun v _ => Routine.tidy_writeValue v
  | read => trivial
  | now => exact fun _ _ => Value.tidy_of_kind (by simp [Value.kind])
  | wait => exact fun v _ => Routine.tidy_waitFor v
  | retrieve => exact fun _ _ _ _ _ _ => trivial

theorem Token.tidy_routine (d : Dictionary) {t : Token}
    (ht : ∀ code, t.form = .quotation code → Bracketed code) : (t.routine d).Tidy := by
  have htext (text : String) : (Act.answer (.text text)).Tidy :=
    Value.tidy_of_kind (by simp [Value.kind])
  obtain ⟨location, form⟩ := t
  cases form with
  | endOfInput => trivial
  | comment text => trivial
  | quotation code =>
    intro code' hcode
    cases hcode
    exact ht code rfl
  | text text => exact htext text
  | textWord text => exact htext text
  | call name =>
    simp only [routine]
    cases d.find? name with
    | none => exact Routine.tidy_number name
    | some w =>
      dsimp only
      cases w.action with
      | primitive p => exact p.tidy_routine
      | script body => trivial

namespace Stack

variable {s t : Stack}

theorem Tidy.of_subset (h : s.Tidy) (hsubset : t.values ⊆ s.values) : t.Tidy :=
  fun v hv => h v (hsubset hv)

theorem Tidy.answer (h : s.Tidy) {v : Value} (hv : v.Tidy) : (s.answer v).state.Tidy := by
  unfold Stack.answer push
  split
  · rename_i hpush
    split at hpush
    · cases hpush
    · cases hpush
      simpa [Outcome.state, Tidy] using ⟨hv, h⟩
  · exact h

theorem Tidy.popAs (h : s.Tidy) {α : Type} (expected : Kind) (select : Value → Option α) :
    (s.popAs expected select).2.Tidy := by
  unfold Stack.popAs
  split
  · exact h
  · rename_i v rest hvalues
    apply h.of_subset
    split <;> simp [hvalues]

theorem Tidy.popValue (h : s.Tidy) : s.popValue.2.Tidy := by
  unfold Stack.popValue pop
  cases hvalues : s.values with
  | nil => exact h
  | cons v rest =>
    apply h.of_subset
    simp [hvalues]

theorem Tidy.bracketed_of_popQuotation (h : s.Tidy) {code : String}
    (hpop : s.popQuotation.1 = .ok code) : Bracketed code := by
  unfold popQuotation Stack.popAs at hpop
  cases hvalues : s.values with
  | nil => simp [hvalues] at hpop
  | cons v rest =>
    have hv : v.Tidy := h v (by simp [hvalues])
    cases v with
    | quotation code' =>
      simp only [hvalues, Except.ok.injEq] at hpop
      rw [← hpop]
      exact hv code' rfl
    | _ => simp [hvalues] at hpop

theorem Tidy.pop (h : s.Tidy) (o : Operand) : (o.pop s).2.Tidy := by
  cases o with
  | value => exact h.popValue
  | _ => exact h.popAs _ _

theorem Tidy.of_pop (h : s.Tidy) {o : Operand} {a : o.Content} (hpop : (o.pop s).1 = .ok a) :
    o.Tidy a := by
  cases o with
  | quotation => exact h.bracketed_of_popQuotation hpop
  | _ => trivial

private theorem Tidy.pick (h : s.Tidy) : s.pick.state.Tidy := by
  unfold Stack.pick
  split
  · exact h
  · rename_i v rest hvalues
    have hbelow : Tidy { values := rest, room := s.room + 1 } := h.of_subset (by simp [hvalues])
    dsimp only
    split
    · split
      · exact hbelow
      · rename_i n _
        simp only [peek]
        split
        · rename_i copy hcopy
          apply hbelow.answer
          apply hbelow
          apply List.mem_of_getElem? (i := n.toInt.toNat)
          split at hcopy
          · rename_i hget
            cases hcopy
            exact hget
          · cases hcopy
        · exact hbelow
    · exact hbelow

private theorem Tidy.pair (h : s.Tidy) (p : Pairing) : (s.pair p).state.Tidy := by
  unfold Stack.pair
  split
  · rename_i b a rest hvalues
    have hbelow : Tidy { values := rest, room := s.room + 2 } := by
      apply h.of_subset
      simp [hvalues]
    dsimp only
    split
    · rename_i v hv
      exact hbelow.answer (Value.tidy_of_kind (Pairing.kind_of_combine? hv))
    · exact hbelow
    · exact hbelow
  · exact h

private theorem Tidy.convert (h : s.Tidy) (c : Conversion) : (s.convert c).state.Tidy := by
  unfold Stack.convert
  split
  · exact h
  · rename_i v rest hvalues
    have hbelow : Tidy { values := rest, room := s.room + 1 } := h.of_subset (by simp [hvalues])
    dsimp only
    split
    · rename_i w hw
      exact hbelow.answer (Value.tidy_of_kind (Conversion.kind_of_convert? hw))
    · exact hbelow

theorem Tidy.apply (h : s.Tidy) (op : Operation) : (s.apply op).state.Tidy := by
  cases op with
  | drop =>
    apply h.of_subset
    simp only [Stack.apply, Stack.drop]
    split <;> simp_all [Outcome.state]
  | pick => exact h.pick
  | swap =>
    apply h.of_subset
    simp only [Stack.apply, Stack.swap]
    split <;> simp_all [Outcome.state]
  | rot =>
    apply h.of_subset
    intro v hv
    simp only [Stack.apply, Stack.rot] at hv
    split at hv <;> simp_all [Outcome.state]
    tauto
  | pair p => exact h.pair p
  | convert c => exact h.convert c

end Stack

namespace Machine

variable {m : Machine}

theorem Tidy.withStack (h : m.Tidy) {s : Stack} (hs : s.Tidy) : (m.withStack s).Tidy :=
  ⟨hs, h.words⟩

theorem Tidy.answer (h : m.Tidy) {v : Value} (hv : v.Tidy) : (m.answer v).state.Tidy := by
  rw [Machine.answer, Outcome.state_map]
  exact h.withStack (h.stack.answer hv)

theorem Tidy.addWord (h : m.Tidy) {w : Word} (hw : w.Tidy) : (m.addWord w).state.Tidy := by
  unfold Machine.addWord Dictionary.define
  split
  · rename_i d hd
    split at hd
    · cases hd
    · cases hd
      refine ⟨h.stack, ?_⟩
      intro v hv
      rcases List.mem_cons.mp hv with rfl | hv
      · exact hw
      · exact h.words v hv
  · exact h

theorem Tidy.of_changes {uses : Resource → Prop} {n : Machine} (h : m.Tidy)
    (hchanges : m.Changes uses n) (hstack : ¬ uses .stack) (hwords : ¬ uses .words) : n.Tidy where
  stack := hchanges.stack hstack ▸ h.stack
  words := hchanges.dictionary hwords ▸ h.words

private theorem Tidy.beginPass (h : m.Tidy) (code : String) (i : Int64) :
    (m.beginPass code i).machine.Tidy := by
  have hanswer := h.stack.answer (v := .integer i) (Value.tidy_of_kind (by simp [Value.kind]))
  unfold Machine.beginPass
  rw [Stack.answer] at hanswer
  split <;> rename_i hpush <;> rw [hpush] at hanswer
  · exact h
  · exact h.withStack hanswer

private theorem Tidy.performRead (h : m.Tidy) : m.performRead.state.Tidy := by
  have hread : m.readLine.2.Tidy := ⟨h.stack, h.words⟩
  unfold Machine.performRead
  split <;> rename_i heq <;> rw [heq] at hread
  · exact hread.answer (Value.tidy_of_kind (by simp [Value.kind]))
  · exact hread

private theorem Tidy.query (h : m.Tidy) {α : Type} (q : Query α) :
    (q.perform m).2.Tidy ∧ ∀ a, (q.perform m).1 = .ok a → q.Tidy a := by
  cases q with
  | operand o => exact ⟨h.withStack (h.stack.pop o), fun a ha => h.stack.of_pop ha⟩
  | _ => exact ⟨h.of_changes (Query.changes _ m) (by simp [Query.resource])
      (by simp [Query.resource]), fun _ _ => trivial⟩

private theorem Tidy.act (h : m.Tidy) {a : Act} (ha : a.Tidy) : (a.perform m).machine.Tidy := by
  cases a with
  | beginPass code count => exact h.beginPass code count
  | answer v => exact h.answer ha
  | operate op =>
    rw [Act.perform, Effect.machine, Outcome.state_map]
    exact h.withStack (h.stack.apply op)
  | define w => exact h.addWord ha
  | read => exact h.performRead
  | _ =>
    exact h.of_changes (Act.changes _ m) (by simp [Act.resources]) (by simp [Act.resources])

theorem Tidy.run (h : m.Tidy) {r : Routine} (hr : r.Tidy) : (r.run m).machine.Tidy := by
  induction r generalizing m with
  | act a => exact h.act hr
  | ask q next ih =>
    obtain ⟨hafter, hreply⟩ := h.query q
    rw [Routine.run]
    rcases hperform : q.perform m with ⟨result, n⟩
    rw [hperform] at hafter hreply
    cases result with
    | error cause => exact hafter
    | ok a => exact ih a hafter (hr a (hreply a rfl))

theorem Tidy.meaning (h : m.Tidy) {t : Token}
    (ht : ∀ code, t.form = .quotation code → Bracketed code) :
    (m.meaning t).2.machine.Tidy := by
  rw [meaning_eq]
  exact h.run (t.tidy_routine m.dictionary ht)

theorem Tidy.endPass (h : m.Tidy) (code : String) (i : Int64) :
    (m.endPass code i).machine.Tidy := by
  rw [← run_again]
  exact h.run (Routine.tidy_again code i)

theorem Tidy.token (h : m.Tidy) (a : Activation) : (m.token a).2.2.Tidy := by
  unfold Machine.token
  split <;> exact ⟨h.stack, h.words⟩

theorem bracketed_of_token {n : Machine} {a b : Activation} {t : Token} {code : String}
    (h : m.token a = (.ok t, b, n)) (hform : t.form = .quotation code) : Bracketed code := by
  obtain ⟨c, -, hread⟩ := m.exists_cursor_token a
  rw [h] at hread
  exact Cursor.bracketed_of_token hread hform

theorem Tidy.start (h : m.Tidy) (calls : List Activation) (a : Activation) :
    (m.start calls a).machine.Tidy := by
  unfold Machine.start
  split <;> exact ⟨h.stack, h.words⟩

theorem Tidy.proceed {effect : Effect} (h : effect.machine.Tidy) (calls : List Activation)
    (layer : Layer) : (proceed calls layer effect).machine.Tidy := by
  cases effect with
  | settled outcome => cases outcome <;> exact h
  | enter code m => exact Tidy.start h calls _
  | pass code count m => exact Tidy.start h calls _

theorem Tidy.leave (h : m.Tidy) (calls : List Activation) (entry : Entry) :
    (m.leave calls entry).machine.Tidy := by
  cases entry with
  | outer => exact h
  | call layer => exact h
  | pass layer code count => exact (h.endPass code count).proceed calls layer

theorem Tidy.step (h : m.Tidy) (calls : List Activation) : (m.step calls).machine.Tidy := by
  cases calls with
  | nil => exact h
  | cons a calls =>
    have hn := h.token a
    simp only [Machine.step]
    split <;> rename_i htoken <;> rw [htoken] at hn
    · exact hn
    · rename_i t b n
      split
      · have hclosed : n.closed.Tidy := ⟨hn.stack, hn.words⟩
        exact hclosed.leave calls b.entry
      · apply Tidy.proceed
        apply hn.meaning
        intro code hcode
        exact bracketed_of_token htoken hcode

end Machine

namespace Progress

theorem tidy_next {p : Progress} (h : p.machine.Tidy) : p.next.machine.Tidy := by
  cases p with
  | running m calls => exact Machine.Tidy.step h calls
  | raising e m calls => cases calls <;> exact ⟨h.stack, h.words⟩
  | halted v m => exact h

theorem tidy_iterate {p : Progress} (h : p.machine.Tidy) (n : Nat) :
    (next^[n] p).machine.Tidy := by
  induction n with
  | zero => exact h
  | succ n ih =>
    rw [Function.iterate_succ_apply']
    exact tidy_next ih

end Progress

theorem Machine.tidy_bare (s : Settings) : (bare s).Tidy := by
  constructor
  · simp [bare, ofSettings, Stack.withCapacity, Stack.Tidy]
  · intro w hw body hbody
    have hnatives : ∀ w ∈ Library.natives.words, w.action.body? = none := by decide
    have hnone := hnatives w hw
    rw [hbody] at hnone
    cases hnone

namespace Progress

/-- A state that a machine gets into by running sources, be they given to it or its line input,
while what it is connected to may be used by others. -/
inductive Executed (s : Machine.Settings) : Progress → Prop
  | new {m : Machine} (h : Machine.IsNew s m) : Executed s (.halted .done m)
  | step {p : Progress} (h : Executed s p) : Executed s p.next
  | execute {v : Verdict} {m : Machine} (h : Executed s (.halted v m)) (hv : v.returns)
      (source : Source) : Executed s (m.accept (.execute source))
  | executeInput {v : Verdict} {m : Machine} (h : Executed s (.halted v m)) (hv : v.returns) :
      Executed s (m.accept .executeInput)
  | outside {v : Verdict} {m : Machine} (h : Executed s (.halted v m)) (hv : v.returns)
      (console : Console) (connection : Option Connection) (generator : Generator)
      (clock : Timestamp) : Executed s (m.accept (.outside console connection generator clock))

theorem Executed.reachable {s : Machine.Settings} {p : Progress} (h : Executed s p) :
    p.Reachable s := by
  have hrequest {v : Verdict} {m : Machine} (r : Request) (hv : v.returns)
      (hm : (halted v m).Reachable s) : (m.accept r).Reachable s :=
    hm.later (later_of_request hv Relation.ReflTransGen.refl)
  induction h with
  | new h => exact ⟨_, h, Relation.ReflTransGen.refl⟩
  | step _ ih => exact ih.later (later_iterate _ 1)
  | execute _ hv source ih => exact hrequest _ hv ih
  | executeInput _ hv ih => exact hrequest _ hv ih
  | outside _ hv console connection generator clock ih => exact hrequest _ hv ih

/-- A machine that has only run sources holds no other code than theirs. -/
theorem Executed.tidy {s : Machine.Settings} {p : Progress} (h : Executed s p) :
    p.machine.Tidy := by
  induction h with
  | new h =>
    cases h with
    | bare => exact Machine.tidy_bare s
    | @full fuel m hfull =>
      have hstart := (Machine.tidy_bare s).start []
        { entry := .outer, cursor := .ofSource (.ofText Library.standardWords) }
      have htidy := tidy_iterate hstart fuel
      rw [iterate_of_run hfull (by simp)] at htidy
      exact htidy
  | step _ ih => exact tidy_next ih
  | execute _ _ source ih => exact ih.start [] _
  | executeInput _ _ ih => exact ih.start [] _
  | outside _ _ console connection generator clock ih => exact ⟨ih.stack, ih.words⟩

end Progress

theorem tokens_display {code : String} (h : Bracketed code) :
    (Cursor.ofSource (.ofText (Value.display (.quotation code)))).tokens =
      ([⟨.start, .quotation code⟩,
        ⟨.behind (Utf8.encode (Value.display (.quotation code))), .endOfInput⟩], none) := by
  let c := Cursor.ofSource (.ofText (Value.display (.quotation code)))
  have hlocation : c.location = .behind [] := rfl
  have hcuts := Cuts.item (item_quotation h []) .nil
  rw [List.append_nil] at hcuts
  exact (Cursor.tokens_eq_iff_cuts rfl hlocation _).mpr ⟨_, hcuts, rfl⟩

theorem tokens_display_iff {code : String} :
    (∃ last, (Source.ofText ("[" ++ code ++ "]")).tokens =
      .ok [⟨.start, .quotation code⟩, ⟨last, .endOfInput⟩]) ↔ Bracketed code := by
  constructor
  · intro h
    obtain ⟨last, h⟩ := h
    rw [Source.tokens_eq_ok_iff] at h
    rcases htoken : (Cursor.ofSource (.ofText ("[" ++ code ++ "]"))).token with ⟨result, after⟩
    cases result with
    | error cause =>
      rw [Cursor.tokens_of_error htoken] at h
      cases h
    | ok t =>
      by_cases ht : t.form = .endOfInput
      · rw [Cursor.tokens_of_end htoken ht] at h
        cases h
      · rw [Cursor.tokens_of_token htoken ht, Prod.mk.injEq, List.cons.injEq] at h
        apply Cursor.bracketed_of_token htoken
        rw [h.1.1]
  · intro h
    exact ⟨_, Source.tokens_eq_ok_iff.mpr (tokens_display h)⟩

theorem Machine.sourceEnds_display {n : Machine} {code : String} (h : Bracketed code)
    (hn : n.depth < n.maxNesting) (hroom : 0 < n.stack.room) :
    n.SourceEnds (.ofText (Value.display (.quotation code))) .done
      (n.withStack ⟨.quotation code :: n.stack.values, n.stack.room - 1⟩) :=
  sourceEnds_of_obeys hn (tokens_display h) (obeys_literal (m := n.opened) rfl hroom)

/-- In a machine that has only run sources, of any bytes, each quotation on the stack and each body
of a word has matching brackets.  What shows such a quotation can be run in any machine with a free
place, and then pushes the same quotation and does nothing else; a machine whose last request has
returned can always run it.  A text is the code of the quotation that it is between brackets if
and only if its brackets match. -/
theorem Progress.quotations_read_back {s : Machine.Settings} {p : Progress} (h : p.Executed s) :
    (∀ code, .quotation code ∈ p.machine.stack.values →
      Bracketed code ∧
      ∀ n : Machine, n.depth < n.maxNesting → 0 < n.stack.room →
        ∃ fuel, n.executeText fuel (Value.display (.quotation code)) =
          (.done, n.withStack ⟨.quotation code :: n.stack.values, n.stack.room - 1⟩)) ∧
    (∀ w ∈ p.machine.dictionary.words, ∀ body, w.action = .script body → Bracketed body) ∧
    (∀ v m, p = .halted v m → v.returns → m.depth < m.maxNesting) ∧
    ∀ q, (∃ last, (Source.ofText ("[" ++ q ++ "]")).tokens =
      .ok [⟨.start, .quotation q⟩, ⟨last, .endOfInput⟩]) ↔ Bracketed q := by
  refine ⟨?_, h.tidy.words, ?_, fun q => tokens_display_iff⟩
  · intro code hcode
    have hbracketed : Bracketed code := h.tidy.stack _ hcode code rfl
    refine ⟨hbracketed, ?_⟩
    intro n hn hroom
    exact (Machine.sourceEnds_iff_exists_execute (by simp)).mp
      (Machine.sourceEnds_display hbracketed hn hroom)
  · intro v m hp hv
    have hnested := h.reachable.nested
    have hlimit := h.reachable.later_bare.follows.maxNesting
    rw [hp] at hnested hlimit
    have hdepth : m.depth = 0 := hnested hv
    have hmax : m.maxNesting = (Machine.bare s).maxNesting := hlimit
    rw [hdepth, hmax]
    exact Machine.maxNesting_bare_pos s

/-- Of a byte that is no UTF-8 and two brackets behind it, a quotation keeps the brackets. -/
theorem Progress.ill_formed_quotation_reads_back :
    let m := Machine.bare { capacity := 1 }
    let p := next^[2] (m.accept (.execute (.ofBytes [91, 255, 91, 93, 93])))
    p.machine.stack.values = [.quotation "\uFFFD[]"] ∧
      ∃ fuel, m.executeText fuel "[\uFFFD[]]" =
        (.done, m.withStack ⟨[.quotation "\uFFFD[]"], 0⟩) := by
  intro m p
  have hstart : (m.accept (.execute (.ofBytes [91, 255, 91, 93, 93]))).Executed { capacity := 1 } :=
    .execute (.new .bare) rfl _
  have hexecuted : p.Executed { capacity := 1 } := hstart.step.step
  have hstack : p.machine.stack.values = [.quotation "\uFFFD[]"] := rfl
  have hread := (quotations_read_back hexecuted).1 "\uFFFD[]" (by simp [hstack])
  exact ⟨hstack, hread.2 m (by decide) (by decide)⟩

end StackScript
