import StackScript.Proofs.Variation
/-!
# Words that a run does not use

A machine may be given one more word before a run.  The run notices it only when it calls the name
or defines it itself (`Machine.simulationOn_inserted`), so a run that succeeds without either does
the same as before (`Machine.evaluate_addWord`).
-/

namespace StackScript

namespace Dictionary

/-- The dictionary with one more word, which comes after the given number of older ones. -/
def inserted (older : Nat) (w : Word) (d : Dictionary) : Dictionary :=
  .ofList (d.toList.take older ++ w :: d.toList.drop older)

variable {older : Nat} {w : Word} {d d' : Dictionary}

private theorem length_toList (d : Dictionary) : d.toList.length = d.size :=
  d.words.length_reverse

theorem inserted_size (w : Word) (d : Dictionary) :
    d.inserted d.size w = { words := w :: d.words } := by
  rw [inserted, ← length_toList, List.take_length, List.drop_length]
  simp [ofList, toList]

theorem find?_inserted {name : String} (h : w.name ≠ name) :
    (d.inserted older w).find? name = d.find? name := by
  have hwords : d.words = (d.toList.drop older).reverse ++ (d.toList.take older).reverse := by
    rw [← List.reverse_append, List.take_append_drop, toList, List.reverse_reverse]
  rw [find?, find?, inserted, ofList, hwords]
  simp [List.find?_append, h]

theorem define_inserted {v : Word} (h : w.name ≠ v.name) (hsize : older ≤ d.size) :
    (d.inserted older w).define v = (d.define v).map (inserted older w) := by
  rw [define, define, find?_inserted h]
  cases d.find? v.name with
  | some _ => rfl
  | none =>
    have holder : older ≤ d.words.reverse.length := by rwa [List.length_reverse]
    simp [Except.map, inserted, ofList, toList, List.take_append_of_le_length holder,
      List.drop_append_of_le_length holder]

theorem Grows.size_le (h : d.Grows d') : d.size ≤ d'.size :=
  h.suffix.length_le

theorem Grows.isSome_find? (h : d.Grows d') {name : String} (hd : (d.find? name).isSome) :
    (d'.find? name).isSome := by
  obtain ⟨new, hnew⟩ := h.suffix
  rw [find?, ← hnew, List.find?_append, Option.isSome_or]
  exact Bool.or_eq_true_iff.mpr (.inr hd)

theorem Grows.exists_inserted (h : d.Grows d') (w : Word) :
    ∃ new, d'.toList = d.toList ++ new ∧
      d'.inserted d.size w = .ofList (d.toList ++ w :: new) := by
  obtain ⟨new, hnew⟩ : d.toList <+: d'.toList := List.reverse_prefix.mpr h.suffix
  refine ⟨new, hnew.symm, ?_⟩
  rw [inserted, ← hnew, ← length_toList, List.take_left, List.drop_left]

end Dictionary

namespace Progress

/-- A name has got a word, or an error that says it has none is on its way out. -/
def Names (name : String) (p : Progress) : Prop :=
  p.Blames (.unknownWord name) ∨ (p.machine.dictionary.find? name).isSome

theorem Names.iterate {name : String} {p : Progress} (h : p.Names name) (n : Nat) :
    (next^[n] p).Names name := by
  rcases h with hblames | hsome
  · exact .inl (hblames.iterate n)
  · exact .inr ((later_iterate p n).follows.dictionary.isSome_find? hsome)

end Progress

namespace Machine

variable {m : Machine}

theorem names_obey_of_isSome {name : String} {t : Token}
    (h : ((m.meaning t).2.machine.dictionary.find? name).isSome) (calls : List Activation) :
    (m.obey calls t).Names name :=
  .inr ((follows_proceed calls _ _).dictionary.isSome_find? h)

theorem names_obey_of_call {name : String} {t : Token} (hform : t.form = .call name)
    (hparse : ∀ i, Integer.parse name ≠ .ok i) (hfind : m.dictionary.find? name = none)
    (calls : List Activation) : (m.obey calls t).Names name := by
  left
  simp only [obey, meaning, hform, hfind, number]
  cases hi : Integer.parse name with
  | ok i => exact absurd hi (hparse i)
  | error _ => rfl

theorem unnoticed_inserted {w : Word} {older : Nat} (hnone : m.dictionary.find? w.name = none)
    (hsize : older ≤ m.dictionary.size) :
    Variation.Unnoticed { dictionary := Dictionary.inserted older w } (fun _ => True)
      (fun effect _ => (effect.machine.dictionary.find? w.name).isSome) m := by
  constructor
  case stack => exact ⟨.overflow, fun _ _ => False, .refl _, fun _ _ => False.elim⟩
  case define =>
    intro _ v
    by_cases hname : w.name = v.name
    · right
      rw [hname] at hnone
      refine ⟨_, Dictionary.define_of_find?_eq_none hnone, fun n _ hn => ?_⟩
      simp [Effect.machine, Outcome.state, hn, Dictionary.find?, hname]
    · exact .inl (Dictionary.define_inserted hname hsize)
  case readLine => exact fun _ => rfl
  case write => exact fun _ _ => .inl rfl

/-- A run with one more word is in step with the run without it, until that one calls the name of
the word or defines it. -/
theorem simulationOn_inserted {w : Word} (hparse : ∀ i, Integer.parse w.name ≠ .ok i)
    (older : Nat) :
    SimulationOn (fun m => older ≤ m.dictionary.size)
      (Variation.apply { dictionary := Dictionary.inserted older w }) fun p _ =>
        p.Names w.name where
  follows hfollows hm := Nat.le_trans hm hfollows.dictionary.size_le
  token m a := by
    unfold token
    split <;> rfl
  closed _ := rfl
  start m calls a _ := .inl (Variation.start_apply rfl rfl m calls a)
  meaning m t hm := by
    cases hnone : m.dictionary.find? w.name with
    | some v =>
      have hsome : (m.dictionary.find? w.name).isSome := by simp [hnone]
      right
      intro calls
      exact names_obey_of_isSome ((m.evolves_meaning t).dictionary.isSome_find? hsome) calls
    | none =>
      by_cases hcall : t.form = .call w.name
      · exact .inr (names_obey_of_call hcall hparse hnone)
      obtain ⟨hlayer, heffect | hsome⟩ := (unnoticed_inserted hnone hm).meaning
        (Routine.within_true _) fun name hname =>
          Dictionary.find?_inserted fun h => hcall (h ▸ hname)
      · exact .inl (Prod.ext hlayer heffect)
      · exact .inr (names_obey_of_isSome hsome)
  endPass m code i _ := .inl (Variation.endPass_apply rfl m code i)

theorem eq_apply_of_addWord {n : Machine} {w : Word} (h : m.addWord w = .done n) :
    n = Variation.apply { dictionary := Dictionary.inserted m.dictionary.size w } m := by
  cases hfind : m.dictionary.find? w.name with
  | some v => simp [addWord, Dictionary.define_of_find?_eq_some hfind] at h
  | none =>
    rw [addWord, Dictionary.define_of_find?_eq_none hfind] at h
    cases h
    simp only [Variation.apply, Dictionary.inserted_size]
    rfl

/-- A run that succeeds can be given a word beforehand, one whose name is no number and is not
defined by the run itself.  It takes the same steps, whatever the word does, and its end differs by
the word alone, which comes between the words that were there and those that the run defines. -/
theorem evaluate_addWord {fuel : Nat} {m m' n : Machine} {a : Activation} {w : Word}
    (h : m.evaluate fuel a = (.done, m')) (hadd : m.addWord w = .done n)
    (hparse : ∀ i, Integer.parse w.name ≠ .ok i) (hnew : m'.dictionary.find? w.name = none) :
    ∃ new, m'.dictionary.toList = m.dictionary.toList ++ new ∧
      n.evaluate fuel a =
        (.done, { m' with dictionary := .ofList (m.dictionary.toList ++ w :: new) }) := by
  have hend := Progress.iterate_of_run h (by simp)
  have hunused : ∀ k ≤ fuel, ¬ (Progress.next^[k] (m.start [] a)).Names w.name := by
    intro k hk hnames
    have hlast := hnames.iterate (fuel - k)
    rw [← Function.iterate_add_apply, Nat.sub_add_cancel hk, hend] at hlast
    simp [Progress.Names, Progress.Blames, Progress.machine, hnew] at hlast
  have hgrows : m.dictionary.Grows m'.dictionary := by
    have hfollows := (m.follows_start [] a).trans (Progress.later_iterate _ fuel).follows
    rw [hend] at hfollows
    exact hfollows.dictionary
  have hsim := simulationOn_inserted hparse m.dictionary.size
  have hstart := (hsim.start m [] a (Nat.le_refl _)).resolve_right (hunused 0 (Nat.zero_le _))
  obtain ⟨new, hold, hinserted⟩ := hgrows.exists_inserted w
  refine ⟨new, hold, ?_⟩
  rw [← hinserted]
  apply Progress.run_of_iterate
  rw [eq_apply_of_addWord hadd, hstart]
  rcases hsim.iterate (m.follows_start [] a).dictionary.size_le fuel with hrun | ⟨k, hk, hnames⟩
  · rw [hrun, hend]
    rfl
  · exact absurd hnames (hunused (k + 1) hk)

/-- A script that defines `twice` and uses it does not notice a word `half`, not even one that
would run for ever. -/
theorem twice_beside_half :
    let m := Machine.bare {}
    let a : Activation :=
      { entry := .outer, cursor := .ofSource (.ofText "*twice [0 pick add] define 21 twice") }
    let half := Word.scripted "half" "half half"
    ∃ n, m.addWord half = .done n ∧ (n.evaluate 12 a).1 = .done ∧
      (n.evaluate 12 a).2.stack = (m.evaluate 12 a).2.stack ∧
      (n.evaluate 12 a).2.dictionary.toList =
        Library.nativeWords ++ [half, Word.scripted "twice" "0 pick add"] := by
  intro m a half
  have hverdict : (m.evaluate 12 a).1 = .done := by decide
  have hdone : m.evaluate 12 a = (.done, (m.evaluate 12 a).2) := by rw [← hverdict]
  have hadd : m.addWord half = .done { m with dictionary := ⟨half :: m.dictionary.words⟩ } := by
    rw [addWord, Dictionary.define_of_find?_eq_none (by decide)]
  have hparse : ∀ i, Integer.parse half.name ≠ .ok i := by
    intro i hi
    have hname : (Integer.parse half.name).toOption = none := by decide
    rw [hi] at hname
    cases hname
  obtain ⟨new, hnew, hrun⟩ := evaluate_addWord hdone hadd hparse (by decide)
  have hwords : (m.evaluate 12 a).2.dictionary.toList =
      m.dictionary.toList ++ [Word.scripted "twice" "0 pick add"] := by decide +kernel
  rw [hwords] at hnew
  refine ⟨_, hadd, ?_⟩
  rw [hrun, ← List.append_cancel_left hnew]
  simp [Dictionary.toList, Dictionary.ofList, m, bare, ofSettings, Library.natives]

end Machine

end StackScript
