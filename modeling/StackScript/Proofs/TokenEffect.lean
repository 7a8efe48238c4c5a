import StackScript.Proofs.DictionaryGrowth
import StackScript.Proofs.WordCall
/-!
# What single tokens do

Rules for following a text token by token: a literal is pushed, a comment does nothing, a number is
pushed, and a word does at once what its primitive does or runs a text.  A text whose tokens all
succeed, up to its end, succeeds; one of whose tokens fails, fails with it.
-/

namespace StackScript

/-- The value that a literal pushes. -/
def Form.value? : Form → Option Value
  | .quotation code => some (.quotation code)
  | .text t => some (.text t)
  | .textWord t => some (.text t)
  | _ => none

/-- What calling a name does, if it has a meaning. -/
def Dictionary.action? (d : Dictionary) (name : String) : Option Action :=
  (d.find? name).map Word.action

theorem Progress.Reachable.action?_of_natives {s : Machine.Settings} {p : Progress}
    (h : p.Reachable s) {name : String} {action : Action}
    (hname : Library.natives.action? name = some action) :
    p.machine.dictionary.action? name = some action := by
  obtain ⟨w, hfind, rfl⟩ := Option.map_eq_some_iff.mp hname
  rw [Dictionary.action?, h.find?_of_natives hfind]
  rfl

namespace Machine

open Progress

variable {m n k : Machine} {l : Location} {ts : List Token} {source : Source}

theorem ends_obey_of_meaning {t : Token} {layer : Layer}
    (h : m.meaning t = (layer, .settled (.done n))) : (m.obey [] t).Ends .done n := by
  rw [obey, h]
  exact ends_running_nil_iff.mpr ⟨rfl, rfl⟩

theorem ends_obey_of_meaning_failed {t : Token} {layer : Layer} {cause : Cause}
    (h : m.meaning t = (layer, .settled (.failed cause n))) :
    (m.obey [] t).Ends (.failed ((Error.ofCause cause).within layer)) n := by
  rw [obey, h]
  exact ends_raising_nil_iff.mpr ⟨rfl, rfl⟩

theorem ends_obey_of_turns {name : String} {action : Action} {last : Effect} {v : Verdict}
    (hname : m.dictionary.action? name = some action) (hturns : (action.perform m).Turns last)
    (hlast : last.Concludes v n) :
    (m.obey [] ⟨l, .call name⟩).Ends (v.within ⟨l, some name⟩) n := by
  obtain ⟨w, hfind, rfl⟩ := Option.map_eq_some_iff.mp hname
  simp only [obey, meaning, hfind]
  exact ends_proceed_iff.mpr ⟨last, v, hturns, hlast, rfl⟩

theorem answer_of_full (hroom : m.stack.room = 0) (v : Value) :
    m.answer v = .failed .overflow m := by
  rw [answer, Stack.answer, Stack.push, hroom]
  rfl

theorem answer_of_stack {values : List Value} {room : Nat} (hstack : m.stack = ⟨values, room + 1⟩)
    (v : Value) : m.answer v = .done (m.withStack ⟨v :: values, room⟩) := by
  rw [answer, hstack]
  rfl

theorem Obeys.nil : m.Obeys [] m := rfl

theorem Obeys.append {us : List Token} (h : m.Obeys ts k) (hus : k.Obeys us n) :
    m.Obeys (ts ++ us) n := by
  induction ts generalizing m with
  | nil =>
    cases h
    exact hus
  | cons t ts ih =>
    obtain ⟨q, hq, hts⟩ := h
    exact ⟨q, hq, ih hts⟩

theorem meaning_literal {form : Form} {v : Value} (hform : form.value? = some v) :
    m.meaning ⟨l, form⟩ = (⟨l, none⟩, .settled (m.answer v)) := by
  cases form with
  | quotation code =>
    cases hform
    rfl
  | text text =>
    cases hform
    rfl
  | textWord text =>
    cases hform
    rfl
  | endOfInput => cases hform
  | comment text => cases hform
  | call name => cases hform

theorem ends_obey_literal_of_full {form : Form} {v : Value} (hform : form.value? = some v)
    (hroom : m.stack.room = 0) :
    (m.obey [] ⟨l, form⟩).Ends (.failed ((Error.ofCause .overflow).within ⟨l, none⟩)) m := by
  apply ends_obey_of_meaning_failed
  rw [meaning_literal hform, answer_of_full hroom]

theorem meaning_number {name : String} {i : Int64} (hname : m.dictionary.action? name = none)
    (hparse : Integer.parse name = .ok i) :
    m.meaning ⟨l, .call name⟩ = (⟨l, none⟩, .settled (m.answer (.integer i))) := by
  have hfind : m.dictionary.find? name = none := Option.map_eq_none_iff.mp hname
  simp only [meaning, hfind, Machine.number, hparse]

theorem Obeys.literal {form : Form} {v : Value} {values : List Value} {room : Nat}
    (hform : form.value? = some v) (hstack : m.stack = ⟨values, room + 1⟩)
    (h : (m.withStack ⟨v :: values, room⟩).Obeys ts n) : m.Obeys (⟨l, form⟩ :: ts) n := by
  have hmeaning : m.meaning ⟨l, form⟩ =
      (⟨l, none⟩, .settled (.done (m.withStack ⟨v :: values, room⟩))) := by
    rw [meaning_literal hform, answer_of_stack hstack]
  exact ⟨_, ends_obey_of_meaning hmeaning, h⟩

theorem obeys_literal {form : Form} {v : Value} (hform : form.value? = some v)
    (hroom : 0 < m.stack.room) :
    m.Obeys [⟨l, form⟩] (m.withStack ⟨v :: m.stack.values, m.stack.room - 1⟩) := by
  have hstack : m.stack = ⟨m.stack.values, m.stack.room - 1 + 1⟩ := by
    rw [Nat.sub_add_cancel hroom]
  exact .literal hform hstack .nil

theorem Obeys.comment {text : String} (h : m.Obeys ts n) :
    m.Obeys (⟨l, .comment text⟩ :: ts) n :=
  ⟨m, ends_obey_of_meaning rfl, h⟩

theorem Obeys.number {name : String} {i : Int64} {values : List Value} {room : Nat}
    (hname : m.dictionary.action? name = none) (hparse : Integer.parse name = .ok i)
    (hstack : m.stack = ⟨values, room + 1⟩)
    (h : (m.withStack ⟨.integer i :: values, room⟩).Obeys ts n) :
    m.Obeys (⟨l, .call name⟩ :: ts) n := by
  have hmeaning : m.meaning ⟨l, .call name⟩ =
      (⟨l, none⟩, .settled (.done (m.withStack ⟨.integer i :: values, room⟩))) := by
    rw [meaning_number hname hparse, answer_of_stack hstack]
  exact ⟨_, ends_obey_of_meaning hmeaning, h⟩

theorem meaning_call {name : String} {action : Action}
    (hname : m.dictionary.action? name = some action) :
    m.meaning ⟨l, .call name⟩ = (⟨l, some name⟩, action.perform m) := by
  obtain ⟨w, hfind, rfl⟩ := Option.map_eq_some_iff.mp hname
  simp only [meaning, hfind]

theorem Obeys.call {name : String} {action : Action}
    (hname : m.dictionary.action? name = some action)
    (heffect : action.perform m = .settled (.done k)) (h : k.Obeys ts n) :
    m.Obeys (⟨l, .call name⟩ :: ts) n :=
  ⟨k, ends_obey_of_meaning ((meaning_call hname).trans (by rw [heffect])), h⟩

theorem Obeys.enter {name code : String} {action : Action} {q : Machine}
    (hname : m.dictionary.action? name = some action) (heffect : action.perform m = .enter code k)
    (hcode : k.SourceEnds (.ofText code) .done q) (h : q.Obeys ts n) :
    m.Obeys (⟨l, .call name⟩ :: ts) n := by
  refine ⟨q, ?_, h⟩
  rw [obey, meaning_call hname, heffect, ends_proceed_iff]
  exact ⟨_, .done, .refl _, hcode, rfl⟩

theorem Obeys.turns {name : String} {action : Action} {last : Effect}
    (hname : m.dictionary.action? name = some action) (hturns : (action.perform m).Turns last)
    (hlast : last.Concludes .done k) (h : k.Obeys ts n) : m.Obeys (⟨l, .call name⟩ :: ts) n :=
  ⟨k, ends_obey_of_turns hname hturns hlast, h⟩

theorem ends_obey_failed {name : String} {action : Action} {cause : Cause}
    (hname : m.dictionary.action? name = some action)
    (heffect : action.perform m = .settled (.failed cause k)) :
    (m.obey [] ⟨l, .call name⟩).Ends (.failed ((Error.ofCause cause).within ⟨l, some name⟩)) k := by
  rw [obey, meaning_call hname, heffect, ends_proceed_iff]
  exact ⟨_, .failed (.ofCause cause), .refl _, ⟨rfl, rfl⟩, rfl⟩

theorem ends_obey_enter_failed {name code : String} {action : Action} {e : Error} {q : Machine}
    (hname : m.dictionary.action? name = some action) (heffect : action.perform m = .enter code k)
    (hcode : k.SourceEnds (.ofText code) (.failed e) q) :
    (m.obey [] ⟨l, .call name⟩).Ends (.failed (e.within ⟨l, some name⟩)) q := by
  rw [obey, meaning_call hname, heffect, ends_proceed_iff]
  exact ⟨_, .failed e, .refl _, hcode, rfl⟩

theorem perform_cycle {code : String} {values : List Value} {room : Nat}
    (hstack : m.stack = ⟨.quotation code :: values, room⟩) :
    Primitive.cycle.perform m = .pass code 0 (m.withStack ⟨.integer 0 :: values, room⟩) := by
  simp only [Primitive.perform, performCycle, taking, Stack.popQuotation, Stack.popAs, hstack,
    beginPass, withStack, Stack.push]

theorem endPass_of_true {code : String} {count : Int64} {values : List Value} {room : Nat}
    (hstack : m.stack = ⟨.boolean true :: values, room⟩) :
    m.endPass code count =
      .pass code (count + 1) (m.withStack ⟨.integer (count + 1) :: values, room⟩) := by
  simp only [endPass, taking, Stack.popBoolean, Stack.popAs, hstack, beginPass, withStack,
    Stack.push, if_true]

theorem endPass_of_false {code : String} {count : Int64} {values : List Value} {room : Nat}
    (hstack : m.stack = ⟨.boolean false :: values, room⟩) :
    m.endPass code count = .settled (.done (m.withStack ⟨values, room + 1⟩)) := by
  simp [endPass, taking, Stack.popBoolean, Stack.popAs, hstack, withStack]

theorem sourceEnds_of_obeys (hm : m.depth < m.maxNesting) {last : Location}
    (htokens : (Cursor.ofSource source).tokens = (ts ++ [⟨last, .endOfInput⟩], none))
    (h : m.opened.Obeys ts n) : m.SourceEnds source .done n.closed := by
  rw [sourceEnds_iff_tokensEnd hm, htokens]
  have hlast : n.Obeys [⟨last, .endOfInput⟩] n := ⟨n, ends_obey_of_meaning rfl, .nil⟩
  exact .inl ⟨n, h.append hlast, rfl, rfl⟩

theorem sourceEnds_of_failed (hm : m.depth < m.maxNesting) {t : Token} {after : List Token}
    {problem : Option Cause} {e : Error}
    (htokens : (Cursor.ofSource source).tokens = (ts ++ t :: after, problem))
    (h : m.opened.Obeys ts n) (hfails : (n.obey [] t).Ends (.failed e) k) :
    m.SourceEnds source (.failed e) k.closed := by
  rw [sourceEnds_iff_tokensEnd hm, htokens]
  exact .inr ⟨ts, t, after, n, k, rfl, h, hfails, by simp, rfl⟩

end Machine

end StackScript
