import StackScript.Proofs.PrimitiveCauses
/-!
# How an error came about

The layers of an error tell the way to its cause: in the source that was run, a token calls a word,
in a text that this word runs, a token calls another one, and so on, down to the token that fails by
itself or the text that cannot be read.  `Machine.FailsThrough` says so, and it holds of an error
exactly if the source fails with it (`Machine.sourceEnds_failed_iff`).  The layers are never more
than the texts that may be running, and each of them names a word, except for the innermost one if
it is that of a literal or of a name without a meaning.
-/

namespace StackScript

namespace Error

theorem root_eq (e : Error) : e.root = .ofCause e.cause := by
  obtain ⟨layers, cause⟩ := e
  induction layers with
  | nil =>
    rw [root]
    rfl
  | cons layer layers ih =>
    rw [root]
    exact ih

end Error

/-- The effect comes to run the text in the machine `n`. -/
def Effect.Runs (effect : Effect) (code : String) (n : Machine) : Prop :=
  effect.Turns (.enter code n) ∨ ∃ count, effect.Turns (.pass code count n)

theorem Effect.Runs.evolves {effect : Effect} {code : String} {n : Machine}
    (h : effect.Runs code n) : effect.machine.Evolves n := by
  rcases h with h | ⟨count, h⟩
  · exact h.evolves
  · exact h.evolves

namespace Machine

/-- The run of a source comes to the token in the machine `n`, after all tokens before it have
succeeded. -/
def ComesTo (m : Machine) (source : Source) (t : Token) (n : Machine) : Prop :=
  ∃ before after, (Cursor.ofSource source).tokens.1 = before ++ t :: after ∧
    m.opened.Obeys before n

/-- The run of a source comes to a call of a word, which has the given effect. -/
def Calls (m : Machine) (source : Source) (location : Location) (name : String)
    (effect : Effect) : Prop :=
  ∃ n w, m.ComesTo source ⟨location, .call name⟩ n ∧ n.dictionary.find? name = some w ∧
    effect = w.action.perform n

/-- The run of a source fails with the error, in the way that its layers tell, and leaves the second
machine behind. -/
inductive FailsThrough : Machine → Source → Error → Machine → Prop
  /-- As many texts are running as may be. -/
  | refused {m : Machine} {source : Source} (hfull : m.maxNesting ≤ m.depth) :
      FailsThrough m source (.ofCause (.tooDeep m.maxNesting)) m
  /-- All tokens succeed, up to where the source cannot be read. -/
  | unreadable {m n : Machine} {source : Source} {cause : Cause} (hroom : m.depth < m.maxNesting)
      (hproblem : (Cursor.ofSource source).tokens.2 = some cause)
      (hbefore : m.opened.Obeys (Cursor.ofSource source).tokens.1 n) :
      FailsThrough m source (.ofCause cause) n.closed
  /-- A literal or a name without a meaning fails. -/
  | literal {m n k : Machine} {source : Source} {t : Token} {cause : Cause}
      (hroom : m.depth < m.maxNesting) (ht : m.ComesTo source t n)
      (hmeaning : n.meaning t = (⟨t.location, none⟩, .settled (.failed cause k))) :
      FailsThrough m source ((Error.ofCause cause).within ⟨t.location, none⟩) k.closed
  /-- A word fails by itself. -/
  | word {m k : Machine} {source : Source} {location : Location} {name : String} {effect : Effect}
      {cause : Cause} (hroom : m.depth < m.maxNesting)
      (hcall : m.Calls source location name effect)
      (hturns : effect.Turns (.settled (.failed cause k))) :
      FailsThrough m source ((Error.ofCause cause).within ⟨location, some name⟩) k.closed
  /-- A text that a word runs fails. -/
  | inside {m n k : Machine} {source : Source} {location : Location} {name : String}
      {effect : Effect} {code : String} {e : Error} (hroom : m.depth < m.maxNesting)
      (hcall : m.Calls source location name effect) (hruns : effect.Runs code n)
      (hinside : FailsThrough n (.ofText code) e k) :
      FailsThrough m source (e.within ⟨location, some name⟩) k.closed

variable {m m' n k : Machine} {source : Source} {t : Token} {e : Error} {cause : Cause}

theorem Calls.evolves {location : Location} {name : String} {effect : Effect}
    (h : m.Calls source location name effect) : m.opened.Evolves effect.machine := by
  obtain ⟨n, w, ⟨before, after, -, hbefore⟩, -, rfl⟩ := h
  exact hbefore.evolves.trans (n.evolves_performAction w.action)

theorem exists_failed_within {v : Verdict} {layer : Layer} (h : .failed e = v.within layer) :
    ∃ inner, v = .failed inner ∧ e = inner.within layer := by
  cases v with
  | done => cases h
  | failed inner => exact ⟨inner, rfl, Verdict.failed.inj h⟩
  | aborted fault => cases h
  | unfinished => cases h

theorem exists_failed_verdict {outcome : Outcome Machine} (h : .failed e = outcome.verdict) :
    ∃ cause n, outcome = .failed cause n ∧ e = .ofCause cause := by
  cases outcome with
  | done n => cases h
  | failed cause n => exact ⟨cause, n, rfl, Verdict.failed.inj h⟩
  | aborted fault n => cases h

/-- A token that fails does so by itself, or by a text that it runs. -/
theorem failsThrough_of_obey (hroom : m.depth < m.maxNesting) (ht : m.ComesTo source t n)
    (h : (n.obey [] t).Ends (.failed e) m')
    (hinside : ∀ (layer : Layer) (inner : Error) (k k' : Machine) (code : String),
      e = inner.within layer → k.SourceEnds (.ofText code) (.failed inner) k' →
      k.FailsThrough (.ofText code) inner k') :
    m.FailsThrough source e m'.closed := by
  rw [obey, ends_proceed_iff] at h
  obtain ⟨last, v, hturns, hconcludes, hv⟩ := h
  obtain ⟨inner, rfl, he⟩ := exists_failed_within hv
  rcases n.meaning_cases t with ⟨name, w, hform, hfind, hmeaning⟩ | ⟨outcome, hmeaning⟩
  · have hcall : m.Calls source t.location name (w.action.perform n) :=
      ⟨n, w, hform ▸ ht, hfind, rfl⟩
    rw [hmeaning] at hturns he
    cases last with
    | settled outcome =>
      obtain ⟨hverdict, rfl⟩ := hconcludes
      obtain ⟨cause, k, rfl, rfl⟩ := exists_failed_verdict hverdict
      rw [he]
      exact .word hroom hcall hturns
    | enter code k =>
      have hfails := hinside _ inner k m' code he hconcludes
      rw [he]
      exact .inside hroom hcall (.inl hturns) hfails
    | pass code count k =>
      have hfails := hinside _ inner k m' code he hconcludes.2
      rw [he]
      exact .inside hroom hcall (.inr ⟨count, hturns⟩) hfails
  · rw [hmeaning] at hturns he
    cases hturns
    obtain ⟨hverdict, rfl⟩ := hconcludes
    obtain ⟨cause, k, rfl, rfl⟩ := exists_failed_verdict hverdict
    rw [he]
    exact .literal hroom ht hmeaning

theorem failsThrough_of_sourceEnds {m m' : Machine} {source : Source} {e : Error}
    (h : m.SourceEnds source (.failed e) m') : m.FailsThrough source e m' := by
  by_cases hroom : m.depth < m.maxNesting
  · rcases (sourceEnds_iff_tokensEnd hroom).mp h with
      ⟨n, hobeys, hv, rfl⟩ | ⟨before, t, after, n, k, htokens, hbefore, hobey, -, rfl⟩
    · cases hproblem : (Cursor.ofSource source).tokens.2 with
      | none =>
        rw [hproblem] at hv
        cases hv
      | some cause =>
        rw [hproblem] at hv
        cases hv
        exact .unreadable hroom hproblem hobeys
    · refine failsThrough_of_obey hroom ⟨before, after, htokens, hbefore⟩ hobey ?_
      intro layer inner k k' code he hinner
      have hfewer : inner.layers.length < e.layers.length := by
        rw [he]
        exact Nat.lt_succ_self _
      exact failsThrough_of_sourceEnds hinner
  · have hfull : m.maxNesting ≤ m.depth := Nat.le_of_not_lt hroom
    obtain ⟨hv, rfl⟩ := (sourceEnds_iff_of_le hfull).mp h
    cases hv
    exact .refused hfull
termination_by e.layers.length

private theorem sourceEnds_of_comesTo (hroom : m.depth < m.maxNesting)
    (ht : m.ComesTo source t n) (h : (n.obey [] t).Ends (.failed e) k) :
    m.SourceEnds source (.failed e) k.closed := by
  obtain ⟨before, after, htokens, hbefore⟩ := ht
  rw [sourceEnds_iff_tokensEnd hroom]
  exact .inr ⟨before, t, after, n, k, htokens, hbefore, h, by simp, rfl⟩

private theorem sourceEnds_of_calls {location : Location} {name : String} {effect last : Effect}
    (hroom : m.depth < m.maxNesting) (hcall : m.Calls source location name effect)
    (hturns : effect.Turns last) (hlast : last.Concludes (.failed e) k) :
    m.SourceEnds source (.failed (e.within ⟨location, some name⟩)) k.closed := by
  obtain ⟨n, w, ht, hfind, rfl⟩ := hcall
  refine sourceEnds_of_comesTo hroom ht ?_
  have hmeaning : n.meaning ⟨location, .call name⟩ =
      (⟨location, some name⟩, w.action.perform n) := by
    simp only [meaning, hfind]
  rw [obey, hmeaning, ends_proceed_iff]
  exact ⟨last, .failed e, hturns, hlast, rfl⟩

theorem FailsThrough.sourceEnds (h : m.FailsThrough source e m') :
    m.SourceEnds source (.failed e) m' := by
  induction h with
  | refused hfull => exact (sourceEnds_iff_of_le hfull).mpr ⟨rfl, rfl⟩
  | unreadable hroom hproblem hbefore =>
    rw [sourceEnds_iff_tokensEnd hroom, hproblem]
    exact .inl ⟨_, hbefore, rfl, rfl⟩
  | literal hroom ht hmeaning =>
    refine sourceEnds_of_comesTo hroom ht ?_
    rw [obey, hmeaning, ends_proceed_iff]
    exact ⟨_, _, .refl _, ⟨rfl, rfl⟩, rfl⟩
  | word hroom hcall hturns => exact sourceEnds_of_calls hroom hcall hturns ⟨rfl, rfl⟩
  | inside hroom hcall hruns _ ih =>
    rcases hruns with hturns | ⟨count, hturns⟩
    · exact sourceEnds_of_calls hroom hcall hturns ih
    · exact sourceEnds_of_calls hroom hcall hturns ⟨by simp, ih⟩

/-- The layers of an error are the way to its cause, and every such way is that of an error. -/
theorem sourceEnds_failed_iff :
    m.SourceEnds source (.failed e) m' ↔ m.FailsThrough source e m' :=
  ⟨failsThrough_of_sourceEnds, FailsThrough.sourceEnds⟩

theorem FailsThrough.length_layers_le (h : m.FailsThrough source e m') :
    e.layers.length ≤ m.maxNesting - m.depth := by
  induction h with
  | refused => exact Nat.zero_le _
  | unreadable => exact Nat.zero_le _
  | literal hroom => exact Nat.sub_pos_of_lt hroom
  | word hroom => exact Nat.sub_pos_of_lt hroom
  | @inside m n k _ _ _ _ _ e hroom hcall hruns _ ih =>
    have hevolves := hcall.evolves.trans hruns.evolves
    have hdepth : n.depth = m.depth + 1 := hevolves.depth
    have hlimit : n.maxNesting = m.maxNesting := hevolves.maxNesting
    have hlength : e.layers.length + 1 ≤ m.maxNesting - m.depth := by omega
    exact hlength

end Machine

/-- The shape of an error with regard to the words it names. -/
structure Error.IsChain (e : Error) : Prop where
  /-- Every layer but the innermost one names a word. -/
  named : ∀ layer ∈ e.layers.dropLast, layer.word.isSome
  /-- What fails without a name is a push on a full stack or a name without a meaning. -/
  unnamed : ∀ layer ∈ e.layers.getLast?, layer.word = none →
    e.cause = .overflow ∨ ∃ name, e.cause = .unknownWord name
  /-- A name without a meaning fails without a name. -/
  unknownWord : ∀ name, e.cause = .unknownWord name →
    ∃ layer ∈ e.layers.getLast?, layer.word = none

namespace Error

theorem isChain_ofCause {cause : Cause} (h : ∀ name, cause ≠ .unknownWord name) :
    (ofCause cause).IsChain where
  named := nofun
  unnamed := nofun
  unknownWord name hname := absurd hname (h name)

theorem isChain_unnamed {cause : Cause} {location : Location}
    (h : cause = .overflow ∨ ∃ name, cause = .unknownWord name) :
    ((ofCause cause).within ⟨location, none⟩).IsChain where
  named := nofun
  unnamed _ _ _ := h
  unknownWord _ _ := ⟨_, rfl, rfl⟩

theorem IsChain.within {e : Error} (h : e.IsChain) {layer : Layer} (hlayer : layer.word.isSome) :
    (e.within layer).IsChain := by
  obtain ⟨layers, cause⟩ := e
  cases layers with
  | nil =>
    refine ⟨nofun, ?_, ?_⟩
    · intro l hl hnone
      obtain rfl : layer = l := Option.some.inj hl
      rw [hnone] at hlayer
      cases hlayer
    · intro name hname
      obtain ⟨_, hlast, -⟩ := h.unknownWord name hname
      cases hlast
  | cons inner layers =>
    refine ⟨?_, h.unnamed, h.unknownWord⟩
    intro l hl
    rcases List.mem_cons.mp hl with rfl | hl
    · exact hlayer
    · exact h.named l hl

end Error

namespace Machine

variable {m m' n k : Machine} {source : Source} {t : Token} {e : Error} {cause : Cause}

theorem cause_of_answer {v : Value} (h : m.answer v = .failed cause n) : cause = .overflow := by
  unfold answer Stack.answer at h
  split at h
  · cases h
  · rename_i hpush
    cases h
    exact Stack.cause_of_push hpush

theorem cause_of_meaning
    (h : m.meaning t = (⟨t.location, none⟩, .settled (.failed cause n))) :
    cause = .overflow ∨ ∃ name, cause = .unknownWord name := by
  have hanswer {v : Value} {layer : Layer}
      (h : (layer, Effect.settled (m.answer v)) =
        (⟨t.location, none⟩, Effect.settled (.failed cause n))) : cause = .overflow :=
    cause_of_answer (Effect.settled.inj (Prod.mk.inj h).2)
  unfold meaning at h
  split at h
  · cases h
  · cases h
  · exact .inl (hanswer h)
  · exact .inl (hanswer h)
  · exact .inl (hanswer h)
  · split at h
    · cases h
    · unfold number at h
      split at h
      · exact .inl (hanswer h)
      · cases h
        exact .inr ⟨_, rfl⟩

theorem FailsThrough.isChain (h : m.FailsThrough source e m') (hsource : source.failure = none) :
    e.IsChain := by
  induction h with
  | refused => exact Error.isChain_ofCause nofun
  | unreadable _ hproblem =>
    obtain ⟨problem, location, rfl⟩ := Cursor.exists_malformed hsource hproblem
    exact Error.isChain_ofCause nofun
  | literal _ _ hmeaning => exact Error.isChain_unnamed (cause_of_meaning hmeaning)
  | word _ hcall hturns =>
    obtain ⟨n, w, -, -, rfl⟩ := hcall
    have hown := hturns.own (n.own_performAction w.action)
    refine Error.IsChain.within (Error.isChain_ofCause ?_) rfl
    rintro name rfl
    cases hown
  | inside _ _ _ _ ih => exact (ih rfl).within rfl

private theorem tokens_of_failsThrough {bytes : List UInt8} (hm : m.depth < m.maxNesting)
    (h : m.FailsThrough (.ofBytes bytes) e m') (hlayers : e.layers = []) :
    ∃ problem location, e = .ofCause (.malformed problem location) ∧
      (Source.ofBytes bytes).tokens = .error (.malformed problem location) := by
  cases h with
  | refused hfull => exact absurd hm (Nat.not_lt_of_le hfull)
  | unreadable _ hproblem _ =>
    obtain ⟨problem, location, rfl⟩ := Cursor.exists_malformed rfl hproblem
    exact ⟨problem, location, rfl, Source.tokens_eq_error_iff.mpr hproblem⟩
  | literal => cases hlayers
  | word => cases hlayers
  | inside => cases hlayers

/-- An error that comes out of a source says that this source cannot be read, or it is a chain of
at least one layer and at most as many as texts may still be entered.  Each layer stands at the
token that fails in its text and names the word that is called there, if one is, and the next one
belongs to a text which that word runs; at the innermost one is the cause, which is what the root of
the error gives. -/
theorem failed_execute_chain {fuel : Nat} {m m' : Machine} {bytes : List UInt8} {e : Error}
    (hm : m.depth < m.maxNesting) (h : m.execute fuel (.ofBytes bytes) = (.failed e, m')) :
    (∃ problem location, e = .ofCause (.malformed problem location) ∧
      (Source.ofBytes bytes).tokens = .error (.malformed problem location)) ∨
    (1 ≤ e.layers.length ∧ e.layers.length ≤ m.maxNesting - m.depth ∧ e.IsChain ∧
      m.FailsThrough (.ofBytes bytes) e m' ∧ e.root = .ofCause e.cause) := by
  have hends : m.SourceEnds (.ofBytes bytes) (.failed e) m' :=
    (sourceEnds_iff_exists_execute (by simp)).mpr ⟨fuel, h⟩
  have hfails := failsThrough_of_sourceEnds hends
  by_cases hlayers : e.layers = []
  · exact .inl (tokens_of_failsThrough hm hfails hlayers)
  · exact .inr ⟨List.length_pos_iff.mpr hlayers, hfails.length_layers_le, hfails.isChain rfl,
      hfails, e.root_eq⟩

/-- Nothing is there to drop in a quotation. -/
theorem chain_of_drop_in_quotation :
    let m := Machine.bare { capacity := 1, maxNesting := 2 }
    ∃ m', m.FailsThrough (.ofBytes (Utf8.encode "[drop] do"))
      { layers := [⟨⟨1, 8⟩, some "do"⟩, ⟨⟨1, 1⟩, some "drop"⟩], cause := .underflow } m' := by
  intro m
  have hfailed : m.execute 6 (.ofBytes (Utf8.encode "[drop] do")) =
      (.failed { layers := [⟨⟨1, 8⟩, some "do"⟩, ⟨⟨1, 1⟩, some "drop"⟩], cause := .underflow },
        m) := rfl
  rcases failed_execute_chain (by decide) hfailed with ⟨_, _, he, -⟩ | ⟨-, -, -, hfails, -⟩
  · cases he
  · exact ⟨m, hfails⟩

end Machine

end StackScript
