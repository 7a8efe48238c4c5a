import StackScript.Proofs.Evolution
/-!
# Runs in step with each other

Two machines that differ in one respect often take the same steps.  `Machine.Simulation` states what
is to be shown of the parts of a step for a change `f` of machines: each part does the same before
and after the change, or the unchanged and the changed run get to a pair of points of `escape`.
Whole runs are then in step with each other up to such a pair (`Machine.Simulation.iterate`).
`Machine.SimulationOn` asks for this only in the machines of an invariant.
-/

namespace StackScript

def Effect.map (f : Machine → Machine) : Effect → Effect
  | .settled outcome => .settled (outcome.map f)
  | .enter code m => .enter code (f m)
  | .pass code count m => .pass code count (f m)

def Progress.map (f : Machine → Machine) : Progress → Progress
  | .running m calls => .running (f m) calls
  | .raising e m calls => .raising e (f m) calls
  | .halted v m => .halted v (f m)

theorem Progress.machine_map (f : Machine → Machine) (p : Progress) :
    (p.map f).machine = f p.machine := by
  cases p <;> rfl

theorem Progress.exists_of_map_eq_halted {f : Machine → Machine} {p : Progress} {v : Verdict}
    {m : Machine} (h : p.map f = .halted v m) : ∃ n, p = .halted v n ∧ m = f n := by
  cases p with
  | running n calls => cases h
  | raising e n calls => cases h
  | halted w n =>
    cases h
    exact ⟨n, rfl, rfl⟩

namespace Machine

/-- A change of machines that the parts of a step do not notice in the machines of `kept`, or else
the unchanged and the changed run get to a pair of points of `escape`. -/
structure SimulationOn (kept : Machine → Prop) (f : Machine → Machine)
    (escape : Progress → Progress → Prop) : Prop where
  /-- What time can do to a machine does not lead out of `kept`. -/
  follows : ∀ {m n : Machine}, m.Follows n → kept m → kept n
  token : ∀ m a, (f m).token a = ((m.token a).1, (m.token a).2.1, f (m.token a).2.2)
  closed : ∀ m : Machine, (f m).closed = f m.closed
  start : ∀ m calls a, kept m →
    (f m).start calls a = (m.start calls a).map f ∨
      escape (m.start calls a) ((f m).start calls a)
  meaning : ∀ m t, kept m →
    (f m).meaning t = ((m.meaning t).1, (m.meaning t).2.map f) ∨
      ∀ calls, escape (m.obey calls t) ((f m).obey calls t)
  endPass : ∀ m code count, kept m →
    (f m).endPass code count = (m.endPass code count).map f ∨
      ∀ calls layer, escape (Machine.proceed calls layer (m.endPass code count))
        (Machine.proceed calls layer ((f m).endPass code count))

namespace SimulationOn

variable {kept : Machine → Prop} {f : Machine → Machine} {escape : Progress → Progress → Prop}

theorem proceed (h : SimulationOn kept f escape) (calls : List Activation) (layer : Layer)
    {effect : Effect} (heffect : kept effect.machine) :
    Machine.proceed calls layer (effect.map f) = (Machine.proceed calls layer effect).map f ∨
      escape (Machine.proceed calls layer effect) (Machine.proceed calls layer (effect.map f)) := by
  cases effect with
  | settled outcome => cases outcome <;> exact .inl rfl
  | enter code m => exact h.start m calls _ heffect
  | pass code count m => exact h.start m calls _ heffect

theorem obey (h : SimulationOn kept f escape) {m : Machine} (hm : kept m)
    (calls : List Activation) (t : Token) :
    (f m).obey calls t = (m.obey calls t).map f ∨ escape (m.obey calls t) ((f m).obey calls t) := by
  rcases h.meaning m t hm with heq | hescape
  · rw [Machine.obey, heq]
    exact h.proceed calls _ (h.follows (m.evolves_meaning t).toFollows hm)
  · exact .inr (hescape calls)

theorem leave (h : SimulationOn kept f escape) {m : Machine} (hm : kept m)
    (calls : List Activation) (entry : Entry) :
    (f m).leave calls entry = (m.leave calls entry).map f ∨
      escape (m.leave calls entry) ((f m).leave calls entry) := by
  cases entry with
  | outer => exact .inl rfl
  | call layer => exact .inl rfl
  | pass layer code count =>
    rcases h.endPass m code count hm with heq | hescape
    · rw [Machine.leave, heq]
      exact h.proceed calls layer (h.follows (m.evolves_endPass code count).toFollows hm)
    · exact .inr (hescape calls layer)

theorem step (h : SimulationOn kept f escape) {m : Machine} (hm : kept m)
    (calls : List Activation) :
    (f m).step calls = (m.step calls).map f ∨ escape (m.step calls) ((f m).step calls) := by
  cases calls with
  | nil => exact .inl rfl
  | cons a calls =>
    have hn := h.follows (m.evolves_token a).toFollows hm
    simp only [Machine.step, h.token m a]
    rcases htoken : m.token a with ⟨result, b, n⟩
    rw [htoken] at hn
    cases result with
    | error cause => exact .inl rfl
    | ok t =>
      dsimp only
      split
      · rw [h.closed]
        exact h.leave (h.follows n.follows_closed hn) calls b.entry
      · exact h.obey hn (b :: calls) t

theorem next (h : SimulationOn kept f escape) {p : Progress} (hp : kept p.machine) :
    (p.map f).next = p.next.map f ∨ escape p.next (p.map f).next := by
  cases p with
  | running m calls => exact h.step hp calls
  | raising e m calls =>
    cases calls with
    | nil => exact .inl rfl
    | cons a calls =>
      left
      simp only [Progress.map, Progress.next, raise, h.closed]
  | halted v m => exact .inl rfl

/-- The changed run takes the steps of the unchanged one, at least until the two come to a pair of
points of `escape`. -/
theorem iterate (h : SimulationOn kept f escape) {p : Progress} (hp : kept p.machine) (n : Nat) :
    Progress.next^[n] (p.map f) = (Progress.next^[n] p).map f ∨
      ∃ k < n, escape (Progress.next^[k + 1] p) (Progress.next^[k + 1] (p.map f)) := by
  induction n generalizing p with
  | zero => exact .inl rfl
  | succ n ih =>
    rcases h.next hp with hs | hs
    · rw [Function.iterate_succ_apply, hs]
      rcases ih (h.follows p.follows_next hp) with hn | ⟨k, hk, he⟩
      · exact .inl hn
      · refine .inr ⟨k + 1, Nat.succ_lt_succ hk, ?_⟩
        rw [Function.iterate_succ_apply Progress.next (k + 1) (p.map f), hs]
        exact he
    · exact .inr ⟨0, Nat.succ_pos n, hs⟩

end SimulationOn

/-- A change of machines that the parts of a step do not notice, or else the unchanged and the
changed run get to a pair of points of `escape`. -/
structure Simulation (f : Machine → Machine) (escape : Progress → Progress → Prop) : Prop where
  token : ∀ m a, (f m).token a = ((m.token a).1, (m.token a).2.1, f (m.token a).2.2)
  closed : ∀ m : Machine, (f m).closed = f m.closed
  start : ∀ m calls a,
    (f m).start calls a = (m.start calls a).map f ∨
      escape (m.start calls a) ((f m).start calls a)
  meaning : ∀ m t,
    (f m).meaning t = ((m.meaning t).1, (m.meaning t).2.map f) ∨
      ∀ calls, escape (m.obey calls t) ((f m).obey calls t)
  endPass : ∀ m code count,
    (f m).endPass code count = (m.endPass code count).map f ∨
      ∀ calls layer, escape (Machine.proceed calls layer (m.endPass code count))
        (Machine.proceed calls layer ((f m).endPass code count))

namespace Simulation

variable {f : Machine → Machine} {escape : Progress → Progress → Prop}

theorem weaken {escape' : Progress → Progress → Prop} (h : Simulation f escape)
    (hescape : ∀ p q, escape p q → escape' p q) : Simulation f escape' where
  token := h.token
  closed := h.closed
  start m calls a := (h.start m calls a).imp_right (hescape _ _)
  meaning m t := (h.meaning m t).imp_right fun hm calls => hescape _ _ (hm calls)
  endPass m code count :=
    (h.endPass m code count).imp_right fun hm calls layer => hescape _ _ (hm calls layer)

theorem everywhere (h : Simulation f escape) : SimulationOn (fun _ => True) f escape where
  follows _ _ := trivial
  token := h.token
  closed := h.closed
  start m calls a _ := h.start m calls a
  meaning m t _ := h.meaning m t
  endPass m code count _ := h.endPass m code count

/-- The changed run takes the steps of the unchanged one, at least until the two come to a pair of
points of `escape`. -/
theorem iterate (h : Simulation f escape) (p : Progress) (n : Nat) :
    Progress.next^[n] (p.map f) = (Progress.next^[n] p).map f ∨
      ∃ k < n, escape (Progress.next^[k + 1] p) (Progress.next^[k + 1] (p.map f)) :=
  h.everywhere.iterate trivial n

end Simulation

end Machine

end StackScript
