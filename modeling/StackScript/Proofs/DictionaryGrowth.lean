import Mathlib.Data.List.Nodup
import StackScript.Proofs.Evolution
/-!
# The meaning of names over time

No name ever has two words, and a name that has a word keeps it: through every run and every
request, whether they succeed or fail, words are only appended.
-/

namespace StackScript

namespace Dictionary

theorem distinct_natives : Library.natives.Distinct := by
  unfold Distinct
  decide

theorem Grows.prefix_toList {d d' : Dictionary} (h : d.Grows d') : d.toList <+: d'.toList :=
  List.reverse_prefix.mpr h.suffix

theorem Distinct.nodup_toList {d : Dictionary} (h : d.Distinct) :
    (d.toList.map Word.name).Nodup := by
  rw [toList, List.map_reverse]
  exact List.nodup_reverse.mpr h

theorem Grows.find?_eq_some {d d' : Dictionary} (h : d.Grows d') (hd : d'.Distinct)
    {name : String} {w : Word} (hw : d.find? name = some w) : d'.find? name = some w := by
  obtain ⟨new, hnew⟩ := h.suffix
  have hn : new.find? (·.name == name) = none := by
    rw [List.find?_eq_none]
    intro v hv hvn
    have hmem := List.mem_of_find?_eq_some hw
    have hwn := List.find?_some hw
    rw [Distinct, ← hnew, List.map_append] at hd
    refine (List.nodup_append.mp hd).2.2 v.name (List.mem_map_of_mem hv) w.name
      (List.mem_map_of_mem hmem) ?_
    rw [beq_iff_eq.mp hvn, beq_iff_eq.mp hwn]
  rw [find?, ← hnew, List.find?_append, hn, Option.none_or]
  exact hw

end Dictionary

namespace Machine

theorem addWord_of_find?_eq_some {m : Machine} {v w : Word}
    (h : m.dictionary.find? w.name = some v) :
    m.addWord w = .failed (.alreadyDefined w.name) m := by
  rw [addWord, Dictionary.define_of_find?_eq_some h]

theorem performDefine_of_find?_eq_some {m : Machine} {body name : String} {rest : List Value}
    {v : Word} (hs : m.stack.values = .quotation body :: .text name :: rest)
    (h : m.dictionary.find? name = some v) :
    m.performDefine =
      .settled (.failed (.alreadyDefined name) (m.withStack ⟨rest, m.stack.room + 1 + 1⟩)) := by
  have hq : m.stack.popQuotation = (.ok body, ⟨.text name :: rest, m.stack.room + 1⟩) := by
    simp only [Stack.popQuotation, Stack.popAs, hs]
  rw [performDefine, taking, hq]
  exact congrArg Effect.settled (addWord_of_find?_eq_some (w := Word.scripted name body) h)

end Machine

namespace Progress

theorem Reachable.distinct {s : Machine.Settings} {p : Progress} (h : p.Reachable s) :
    p.machine.dictionary.Distinct :=
  h.later_bare.follows.dictionary.distinct Dictionary.distinct_natives

theorem Reachable.find?_of_natives {s : Machine.Settings} {p : Progress} (h : p.Reachable s)
    {name : String} {w : Word} (hw : Library.natives.find? name = some w) :
    p.machine.dictionary.find? name = some w :=
  h.later_bare.follows.dictionary.find?_eq_some h.distinct hw

/-- From a reachable state on, whatever is run or asked for, words are only appended and their
names stay distinct.  So a name keeps the word that it has, and a second definition of it is
refused, be it asked for from outside or by a script at any depth. -/
theorem dictionary_append_only {s : Machine.Settings} {p q : Progress} (hp : p.Reachable s)
    (hq : Later p q) :
    p.machine.dictionary.toList <+: q.machine.dictionary.toList ∧
    (q.machine.dictionary.toList.map Word.name).Nodup ∧
    (∀ name w, p.machine.dictionary.find? name = some w →
      q.machine.dictionary.find? name = some w) ∧
    (∀ v w, q.machine.dictionary.find? w.name = some v →
      q.machine.accept (.addWord w) =
        .halted (.failed (.ofCause (.alreadyDefined w.name))) q.machine) ∧
    (∀ (m : Machine) (calls : List Activation) (layer : Layer) (body name : String)
      (rest : List Value) (v : Word),
      m.stack.values = .quotation body :: .text name :: rest → m.dictionary.find? name = some v →
      ∃ e n, (Machine.proceed calls layer (Primitive.define.perform m)).Ends (.failed e) n ∧
        e.cause = .alreadyDefined name ∧ n.dictionary = m.dictionary) := by
  have hgrows := hq.follows.dictionary
  have hdistinct := (hp.later hq).distinct
  refine ⟨hgrows.prefix_toList, hdistinct.nodup_toList,
    fun name w hw => hgrows.find?_eq_some hdistinct hw, ?_, ?_⟩
  · intro v w hw
    rw [Machine.accept, Machine.addWord_of_find?_eq_some hw]
    rfl
  · intro m calls layer body name rest v hs hv
    have hd := Machine.performDefine_of_find?_eq_some hs hv
    obtain ⟨e, n, hends, hcause, hn⟩ := exists_ends_raising
      ((Error.ofCause (.alreadyDefined name)).within layer)
      (m.withStack ⟨rest, m.stack.room + 1 + 1⟩) calls
    refine ⟨e, n, ?_, hcause, by rw [hn]; rfl⟩
    rw [Primitive.perform, hd]
    exact hends

/-- A script that defines `a` twice: the first meaning outlives the second definition. -/
theorem redefined_name_keeps_word :
    let start := (Machine.bare {}).accept (.execute (.ofText "*a [1] define *a [2] define"))
    (next^[3] start).machine.dictionary.find? "a" = some (Word.scripted "a" "1") ∧
      (next^[5] (next^[3] start)).machine.dictionary.find? "a" = some (Word.scripted "a" "1") := by
  intro start
  have hfirst : (next^[3] start).machine.dictionary.find? "a" = some (Word.scripted "a" "1") := by
    decide
  have hreachable : (next^[3] start).Reachable {} :=
    ⟨.bare {}, .bare, later_of_request rfl (later_iterate start 3)⟩
  exact ⟨hfirst, (dictionary_append_only hreachable (later_iterate _ 5)).2.2.1 "a" _ hfirst⟩

end Progress

end StackScript
