import StackScript.Proofs.Nesting
import StackScript.Proofs.Variation
/-!
# The nesting limit

A run takes notice of the nesting limit only where a text is refused.  So the limit makes no
difference to a run that never has more texts running than it allows.  Under a lower limit the run
goes on in the same way up to the first text that is one too many, and the error that is raised
there comes up through all the words that are running.
-/

namespace StackScript

def Entry.layer? : Entry → Option Layer
  | .outer => none
  | .call layer => some layer
  | .pass layer _ _ => some layer

/-- The text was entered by a word, and its errors get a layer with the name of that word. -/
def Entry.Named (entry : Entry) : Prop :=
  ∃ layer, entry.layer? = some layer ∧ layer.word.isSome

/-- The outermost activation was asked for from outside, and words have entered all the others. -/
def EnteredByWords : List Activation → Prop
  | [] => True
  | [a] => a.entry = .outer
  | a :: b :: calls => a.entry.Named ∧ EnteredByWords (b :: calls)

namespace EnteredByWords

theorem tail {a : Activation} {calls : List Activation} (h : EnteredByWords (a :: calls)) :
    EnteredByWords calls := by
  cases calls with
  | nil => trivial
  | cons b calls => exact h.2

theorem replace {a b : Activation} {calls : List Activation} (h : EnteredByWords (a :: calls))
    (hentry : b.entry = a.entry) : EnteredByWords (b :: calls) := by
  cases calls with
  | nil => exact hentry.trans h
  | cons c calls =>
    refine ⟨?_, h.2⟩
    rw [hentry]
    exact h.1

theorem push {a : Activation} {calls : List Activation} (h : EnteredByWords calls)
    (hcalls : calls ≠ []) (ha : a.entry.Named) : EnteredByWords (a :: calls) := by
  cases calls with
  | nil => exact absurd rfl hcalls
  | cons b calls => exact ⟨ha, h⟩

end EnteredByWords

namespace Error

theorem layers_enclose_of_named {entry : Entry} (h : entry.Named) (e : Error) :
    ∃ layer, layer.word.isSome ∧ (entry.enclose e).layers = layer :: e.layers := by
  obtain ⟨layer, hlayer, hword⟩ := h
  refine ⟨layer, hword, ?_⟩
  cases entry with
  | outer => cases hlayer
  | call l =>
    cases hlayer
    rfl
  | pass l code count =>
    cases hlayer
    rfl

theorem length_layers_through {calls : List Activation} (h : EnteredByWords calls)
    (hcalls : calls ≠ []) (e : Error) :
    (e.through calls).layers.length + 1 = e.layers.length + calls.length := by
  induction calls generalizing e with
  | nil => exact absurd rfl hcalls
  | cons a calls ih =>
    cases calls with
    | nil =>
      have hentry : a.entry = .outer := h
      simp only [through, hentry, Entry.enclose, List.length_singleton]
    | cons b calls =>
      obtain ⟨layer, -, hlayers⟩ := layers_enclose_of_named h.1 e
      have hlength := ih h.2 (List.cons_ne_nil b calls) (a.entry.enclose e)
      rw [hlayers] at hlength
      simp only [through, List.length_cons] at hlength ⊢
      omega

theorem named_layers_through {calls : List Activation} (h : EnteredByWords calls) (e : Error)
    (he : ∀ layer ∈ e.layers, layer.word.isSome) :
    ∀ layer ∈ (e.through calls).layers, layer.word.isSome := by
  induction calls generalizing e with
  | nil => exact he
  | cons a calls ih =>
    cases calls with
    | nil =>
      have hentry : a.entry = .outer := h
      rw [through, through, hentry]
      exact he
    | cons b calls =>
      obtain ⟨layer, hword, hlayers⟩ := layers_enclose_of_named h.1 e
      apply ih h.2 (a.entry.enclose e)
      intro l hl
      rw [hlayers] at hl
      rcases List.mem_cons.mp hl with rfl | hl
      · exact hword
      · exact he l hl

end Error

namespace Machine

theorem named_or_settled (m : Machine) (t : Token) :
    (m.meaning t).1.word.isSome ∨ ∃ outcome, (m.meaning t).2 = .settled outcome := by
  rcases m.meaning_cases t with ⟨name, w, -, -, hmeaning⟩ | ⟨outcome, hmeaning⟩ <;> rw [hmeaning]
  · exact .inl rfl
  · exact .inr ⟨outcome, rfl⟩

theorem enteredByWords_start {m : Machine} {calls : List Activation} {a : Activation}
    (h : EnteredByWords calls) (hcalls : calls ≠ []) (ha : a.entry.Named) :
    EnteredByWords (m.start calls a).calls := by
  unfold start
  split
  · exact h
  · exact h.push hcalls ha

theorem enteredByWords_proceed {calls : List Activation} {layer : Layer} {effect : Effect}
    (h : EnteredByWords calls) (hcalls : calls ≠ [])
    (hlayer : layer.word.isSome ∨ ∃ outcome, effect = .settled outcome) :
    EnteredByWords (proceed calls layer effect).calls := by
  cases effect with
  | settled outcome =>
    cases outcome with
    | done m => exact h
    | failed cause m => exact h
    | aborted fault m => trivial
  | enter code m =>
    have hword : layer.word.isSome := hlayer.resolve_right (by simp)
    exact enteredByWords_start h hcalls ⟨layer, rfl, hword⟩
  | pass code count m =>
    have hword : layer.word.isSome := hlayer.resolve_right (by simp)
    exact enteredByWords_start h hcalls ⟨layer, rfl, hword⟩

theorem enteredByWords_leave {m : Machine} {a : Activation} {calls : List Activation}
    (h : EnteredByWords (a :: calls)) : EnteredByWords (m.leave calls a.entry).calls := by
  obtain ⟨entry, cursor, shared⟩ := a
  cases entry with
  | outer => exact h.tail
  | call layer => exact h.tail
  | pass layer code count =>
    cases calls with
    | nil => cases h
    | cons b calls =>
      obtain ⟨⟨l, hl, hword⟩, hcalls⟩ := h
      cases hl
      exact enteredByWords_proceed hcalls (List.cons_ne_nil b calls) (.inl hword)

theorem entry_token (m : Machine) (a : Activation) : (m.token a).2.1.entry = a.entry := by
  unfold token
  split <;> rfl

theorem enteredByWords_step {m : Machine} {calls : List Activation} (h : EnteredByWords calls) :
    EnteredByWords (m.step calls).calls := by
  cases calls with
  | nil => trivial
  | cons a calls =>
    have hentry := m.entry_token a
    simp only [step]
    rcases htoken : m.token a with ⟨result, b, n⟩
    rw [htoken] at hentry
    have hb : EnteredByWords (b :: calls) := h.replace hentry
    cases result with
    | error cause => exact hb
    | ok t =>
      dsimp only
      split
      · exact enteredByWords_leave hb
      · exact enteredByWords_proceed hb (List.cons_ne_nil b calls) (n.named_or_settled t)

end Machine

def Machine.withMaxNesting (limit : Nat) (m : Machine) : Machine := { m with maxNesting := limit }

namespace Progress

theorem enteredByWords_next {p : Progress} (h : EnteredByWords p.calls) :
    EnteredByWords p.next.calls := by
  cases p with
  | running m calls => exact Machine.enteredByWords_step h
  | raising e m calls =>
    cases calls with
    | nil => trivial
    | cons a calls => exact h.tail
  | halted v m => trivial

theorem enteredByWords_iterate {p : Progress} (h : EnteredByWords p.calls) (n : Nat) :
    EnteredByWords (next^[n] p).calls := by
  induction n with
  | zero => exact h
  | succ n ih =>
    rw [Function.iterate_succ_apply']
    exact enteredByWords_next ih

/-- A text has been started in the first run that was refused in the second one, for the limit of
the second. -/
def Refused (limit : Nat) (p q : Progress) : Prop :=
  ∃ (n : Machine) (a : Activation) (calls : List Activation),
    p = .running n.opened (a :: calls) ∧ limit ≤ n.depth ∧
    q = .raising (a.entry.enclose (.ofCause (.tooDeep limit))) (n.withMaxNesting limit) calls

end Progress

namespace Machine

theorem blames_start_of_le {m : Machine} (h : m.maxNesting ≤ m.depth) (calls : List Activation)
    (a : Activation) : (m.start calls a).Blames (.tooDeep m.maxNesting) := by
  rw [start, if_pos h]
  exact Error.cause_enclose _ _

/-- Under another limit a run takes the same steps, until one of the two limits refuses a text. -/
theorem simulation_withMaxNesting (limit : Nat) :
    Simulation (withMaxNesting limit) fun p q =>
      (∃ l, p.Blames (.tooDeep l)) ∨ Progress.Refused limit p q := by
  let g : Variation := { maxNesting := fun _ => limit }
  have hunnoticed (m : Machine) : g.Unnoticed (fun _ => True) (fun _ _ => False) m :=
    Variation.unnoticed_of_id rfl rfl rfl m
  apply Variation.simulation hunnoticed rfl
  case hescape => exact fun _ _ _ _ => False.elim
  case htoken =>
    intro m a
    unfold token
    split <;> rfl
  case hclosed => exact fun _ => rfl
  case hstart =>
    intro m calls a
    by_cases hold : m.maxNesting ≤ m.depth
    · exact .inr (.inl ⟨m.maxNesting, blames_start_of_le hold calls a⟩)
    · have hstart : m.start calls a = .running m.opened (a :: calls) := if_neg hold
      rw [hstart]
      by_cases hnew : limit ≤ m.depth
      · exact .inr (.inr ⟨m, a, calls, rfl, hnew, if_pos hnew⟩)
      · exact .inl (if_neg hnew)

variable {fuel : Nat} {m m' : Machine} {a : Activation} {v : Verdict}

/-- A run that starts in `m` counts its activations above the texts that are running in `m`. -/
theorem nested_iterate (m : Machine) (a : Activation) (k : Nat) :
    (Progress.next^[k] (m.start [] a)).Nested m.depth := by
  have hm : m.Counts m.depth [] := ⟨rfl, fun hne => absurd rfl hne⟩
  exact (nested_start hm a).iterate k

private theorem evaluate_of_peak_le (h : m.evaluate fuel a = (v, m')) (hv : v ≠ .unfinished)
    (hd : ∀ e l, v = .failed e → e.cause ≠ .tooDeep l) {limit : Nat}
    (hlimit : m.depth + (m.start [] a).peak (·.calls.length) fuel ≤ limit) :
    (m.withMaxNesting limit).evaluate fuel a = (v, m'.withMaxNesting limit) := by
  have hend := Progress.iterate_of_run h hv
  have hstays : ∀ k ≤ fuel, ∀ q,
      ¬ ((∃ l, (Progress.next^[k] (m.start [] a)).Blames (.tooDeep l)) ∨
        Progress.Refused limit (Progress.next^[k] (m.start [] a)) q) := by
    rintro k hk q (⟨l, hblames⟩ | ⟨n, b, calls, hrunning, hfull, -⟩)
    · obtain ⟨e, he, hcause⟩ := hblames.exists_failed hk hend
      exact hd e l he hcause
    · have hnested := nested_iterate m a k
      have hpeak := Progress.le_peak (·.calls.length) hk (m.start [] a)
      rw [hrunning] at hnested hpeak
      have hdepth : n.depth + 1 = m.depth + (calls.length + 1) := hnested.depth
      have hlength : calls.length + 1 ≤ (m.start [] a).peak (·.calls.length) fuel := hpeak
      omega
  have hsim := simulation_withMaxNesting limit
  have hstart : (m.withMaxNesting limit).start [] a = (m.start [] a).map (withMaxNesting limit) :=
    (hsim.start m [] a).resolve_right (hstays 0 (Nat.zero_le fuel) _)
  apply Progress.run_of_iterate
  rw [hstart]
  rcases hsim.iterate (m.start [] a) fuel with hrun | ⟨k, hk, hescape⟩
  · rw [hrun, hend]
    rfl
  · exact absurd hescape (hstays (k + 1) hk _)

private theorem exists_refused_of_lt_peak (h : m.evaluate fuel a = (v, m')) (hv : v ≠ .unfinished)
    (hd : ∀ e l, v = .failed e → e.cause ≠ .tooDeep l) {limit : Nat} (hpos : m.depth < limit)
    (hlimit : limit < m.depth + (m.start [] a).peak (·.calls.length) fuel) :
    ∃ k, Progress.Refused limit (Progress.next^[k] (m.start [] a))
      (Progress.next^[k] ((m.withMaxNesting limit).start [] a)) := by
  have hend := Progress.iterate_of_run h hv
  have hsound : ∀ k ≤ fuel, ¬ ∃ l, (Progress.next^[k] (m.start [] a)).Blames (.tooDeep l) := by
    rintro k hk ⟨l, hblames⟩
    obtain ⟨e, he, hcause⟩ := hblames.exists_failed hk hend
    exact hd e l he hcause
  have hroom : ¬ m.maxNesting ≤ m.depth := fun hle =>
    hsound 0 (Nat.zero_le fuel) ⟨m.maxNesting, blames_start_of_le hle [] a⟩
  have hstart : (m.withMaxNesting limit).start [] a =
      (m.start [] a).map (withMaxNesting limit) := by
    have hnew : ¬ limit ≤ m.depth := Nat.not_le_of_lt hpos
    rw [show m.start [] a = .running m.opened [a] from if_neg hroom]
    exact if_neg hnew
  obtain ⟨k, hk, hpeak⟩ := Progress.exists_eq_peak (·.calls.length) fuel (m.start [] a)
  rcases (simulation_withMaxNesting limit).iterate (m.start [] a) k with hrun | ⟨j, hj, hescape⟩
  · have hnested := nested_iterate (m.withMaxNesting limit) a k
    rw [hstart, hrun] at hnested
    cases hp : Progress.next^[k] (m.start [] a) with
    | halted w n =>
      rw [hp] at hpeak
      have hzero : 0 = (m.start [] a).peak (·.calls.length) fuel := hpeak
      omega
    | running n calls | raising e n calls =>
      rw [hp] at hpeak hnested
      have hlength : calls.length = (m.start [] a).peak (·.calls.length) fuel := hpeak
      have hdepth : n.depth = m.depth + calls.length := hnested.depth
      have hle : n.depth ≤ limit := by
        apply hnested.limit
        intro hnil
        rw [hnil] at hlength
        have hzero : 0 = (m.start [] a).peak (·.calls.length) fuel := hlength
        omega
      omega
  · rw [← hstart] at hescape
    exact ⟨j + 1, hescape.resolve_left (hsound (j + 1) (by omega))⟩

/-- The nesting limit makes no difference to a run that ends, as long as it allows for the largest
number of texts that are running at once.  A lower limit, under which the run starts at all, fails
it: the error says that the limit is exceeded, and it has one layer, with the name of a word, for
each of the texts that the limit allows. -/
theorem evaluate_withMaxNesting {fuel : Nat} {m m' : Machine} {cursor : Cursor} {shared : Bool}
    {v : Verdict} (h : m.evaluate fuel { entry := .outer, cursor, shared } = (v, m'))
    (hv : v ≠ .unfinished) (hd : ∀ e l, v = .failed e → e.cause ≠ .tooDeep l) (limit : Nat) :
    let a : Activation := { entry := .outer, cursor, shared }
    let peak := (m.start [] a).peak (·.calls.length) fuel
    (m.depth + peak ≤ limit →
      (m.withMaxNesting limit).evaluate fuel a = (v, m'.withMaxNesting limit)) ∧
    (m.depth < limit → limit < m.depth + peak →
      ∃ fuel' e n, (m.withMaxNesting limit).evaluate fuel' a = (.failed e, n) ∧
        e.cause = .tooDeep limit ∧ e.layers.length = limit - m.depth ∧
        ∀ layer ∈ e.layers, layer.word.isSome) := by
  intro a peak
  refine ⟨evaluate_of_peak_le h hv hd, ?_⟩
  intro hpos hlimit
  obtain ⟨k, n, b, calls, hrunning, hfull, hraising⟩ :=
    exists_refused_of_lt_peak h hv hd hpos hlimit
  have hbefore := nested_iterate m a k
  rw [hrunning] at hbefore
  have hcount : n.depth + 1 = m.depth + (calls.length + 1) := hbefore.depth
  have hcalls : calls ≠ [] := by
    intro hnil
    rw [hnil, List.length_nil] at hcount
    omega
  have hafter := nested_iterate (m.withMaxNesting limit) a k
  rw [hraising] at hafter
  have hle : n.depth ≤ limit := hafter.limit hcalls
  have houter : EnteredByWords (m.start [] a).calls := by
    unfold start
    split
    · trivial
    · exact rfl
  have hwords := Progress.enteredByWords_iterate houter k
  rw [hrunning] at hwords
  have hinner : b.entry.Named := by
    cases calls with
    | nil => exact absurd rfl hcalls
    | cons c calls => exact hwords.1
  obtain ⟨layer, hlayer, hlayers⟩ :=
    Error.layers_enclose_of_named hinner (.ofCause (.tooDeep limit))
  let e := b.entry.enclose (.ofCause (.tooDeep limit))
  obtain ⟨n', hends, -⟩ := Progress.exists_ends_through e (n.withMaxNesting limit) calls
  rw [← hraising] at hends
  obtain ⟨fuel', hrun⟩ := (Progress.ends_iff_exists_run (by simp)).mp hends.of_iterate
  refine ⟨fuel', e.through calls, n', hrun, ?_, ?_, ?_⟩
  · rw [Error.cause_through, Error.cause_enclose]
    rfl
  · have hlength := Error.length_layers_through hwords.tail hcalls e
    rw [hlayers, List.length_cons] at hlength
    have hnone : (Error.ofCause (.tooDeep limit)).layers.length = 0 := rfl
    omega
  · apply Error.named_layers_through hwords.tail
    intro l hl
    rw [hlayers] at hl
    have hl' : l = layer := List.mem_singleton.mp hl
    rw [hl']
    exact hlayer

/-- A quotation inside a quotation: three texts are running at once.  A limit of three is enough,
and a limit of two is exceeded inside both calls. -/
theorem nested_quotations_under_limits :
    let m := Machine.bare { maxNesting := 5 }
    let c := Cursor.ofSource (.ofText "[[7] do] do")
    ((m.withMaxNesting 3).evaluate 12 { entry := .outer, cursor := c }).1 = .done ∧
      ∃ fuel e n,
        (m.withMaxNesting 2).evaluate fuel { entry := .outer, cursor := c } = (.failed e, n) ∧
        e.cause = .tooDeep 2 ∧ e.layers.length = 2 := by
  intro m c
  have hverdict : (m.evaluate 12 { entry := .outer, cursor := c }).1 = .done := rfl
  have hdone : m.evaluate 12 { entry := .outer, cursor := c } =
      (.done, (m.evaluate 12 { entry := .outer, cursor := c }).2) := by rw [← hverdict]
  have hpeak : m.depth +
      (m.start [] { entry := .outer, cursor := c }).peak (·.calls.length) 12 = 3 := by
    decide
  obtain ⟨hthree, -⟩ := evaluate_withMaxNesting hdone (by simp) (by simp) 3
  obtain ⟨-, htwo⟩ := evaluate_withMaxNesting hdone (by simp) (by simp) 2
  rw [hpeak] at hthree htwo
  refine ⟨?_, ?_⟩
  · rw [hthree (Nat.le_refl 3)]
  · obtain ⟨fuel, e, n, hrun, hcause, hlength, -⟩ := htwo (by decide) (by decide)
    exact ⟨fuel, e, n, hrun, hcause, hlength⟩

end Machine

end StackScript
