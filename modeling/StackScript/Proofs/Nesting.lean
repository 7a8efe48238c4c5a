import StackScript.Proofs.Evolution
/-!
# The nesting depth

A machine counts the texts that are running in it.  The count goes up when a text is entered and
down when it is left, at its end or by an error.  `Progress.Nested` says that the count is right: it
is the number of activations, above those that were running before.  Every step preserves it, so a
text that returns in any way leaves the depth as it found it.
-/

namespace StackScript

/-- The activations of a run, the innermost first. -/
def Progress.calls : Progress → List Activation
  | .running _ calls => calls
  | .raising _ _ calls => calls
  | .halted _ _ => []

namespace Machine

/-- The machine counts the given activations above `base` others, and it had room for them. -/
structure Counts (base : Nat) (m : Machine) (calls : List Activation) : Prop where
  depth : m.depth = base + calls.length
  limit : calls ≠ [] → m.depth ≤ m.maxNesting

theorem Counts.evolves {base : Nat} {m n : Machine} {calls : List Activation}
    (h : m.Counts base calls) (hn : m.Evolves n) : n.Counts base calls := by
  refine ⟨hn.depth.trans h.depth, fun hc => ?_⟩
  rw [hn.depth, hn.maxNesting]
  exact h.limit hc

theorem Counts.replace {base : Nat} {m : Machine} {a : Activation} {calls : List Activation}
    (h : m.Counts base (a :: calls)) (b : Activation) : m.Counts base (b :: calls) :=
  ⟨h.depth, fun _ => h.limit (List.cons_ne_nil a calls)⟩

theorem Counts.closed {base : Nat} {m : Machine} {a : Activation} {calls : List Activation}
    (h : m.Counts base (a :: calls)) : m.closed.Counts base calls := by
  have hd : m.closed.depth = base + calls.length := by
    simp only [Machine.closed, h.depth, List.length_cons]
    omega
  refine ⟨hd, fun _ => ?_⟩
  exact Nat.le_trans (Nat.sub_le m.depth 1) (h.limit (List.cons_ne_nil a calls))

theorem Counts.le_depth {base : Nat} {m : Machine} {calls : List Activation}
    (h : m.Counts base calls) : base ≤ m.depth := by
  rw [h.depth]
  exact Nat.le_add_right _ _

theorem Counts.length_le {base : Nat} {m : Machine} {calls : List Activation}
    (h : m.Counts base calls) : calls.length ≤ m.maxNesting := by
  cases calls with
  | nil => exact Nat.zero_le _
  | cons a calls =>
    have hl := h.limit (List.cons_ne_nil a calls)
    have hd := h.depth
    omega

end Machine

namespace Progress

/-- The count of the running texts is right, for a run that started inside `base` others. -/
def Nested (base : Nat) : Progress → Prop
  | .running m calls => m.Counts base calls
  | .raising _ m calls => m.Counts base calls
  | .halted v m => v.returns → m.depth = base

end Progress

namespace Machine

theorem nested_start {base : Nat} {m : Machine} {calls : List Activation}
    (h : m.Counts base calls) (a : Activation) : (m.start calls a).Nested base := by
  unfold start
  split
  · exact h
  · rename_i hlimit
    refine ⟨?_, fun _ => ?_⟩
    · simp only [opened, h.depth, List.length_cons]
      omega
    · exact Nat.lt_of_not_le hlimit

theorem nested_proceed {base : Nat} {calls : List Activation} {effect : Effect}
    (h : effect.machine.Counts base calls) (layer : Layer) :
    (proceed calls layer effect).Nested base := by
  cases effect with
  | settled outcome =>
    cases outcome with
    | done m => exact h
    | failed cause m => exact h
    | aborted fault m => exact fun hv => absurd hv (by simp [Verdict.returns])
  | enter code m => exact nested_start h _
  | pass code count m => exact nested_start h _

theorem nested_leave {base : Nat} {m : Machine} {calls : List Activation}
    (h : m.Counts base calls) (entry : Entry) : (m.leave calls entry).Nested base := by
  cases entry with
  | outer => exact h
  | call layer => exact h
  | pass layer code count => exact nested_proceed (h.evolves (m.evolves_endPass code count)) layer

theorem nested_step {base : Nat} {m : Machine} {calls : List Activation}
    (h : m.Counts base calls) : (m.step calls).Nested base := by
  cases calls with
  | nil => exact fun _ => h.depth
  | cons a calls =>
    have ht := h.evolves (m.evolves_token a)
    simp only [step]
    split <;> rename_i heq <;> rw [heq] at ht
    · exact ht.replace _
    · rename_i t b n
      split
      · exact nested_leave ht.closed b.entry
      · exact nested_proceed ((ht.replace b).evolves (n.evolves_meaning t)) _

theorem le_depth_start (m : Machine) (calls : List Activation) (a : Activation) :
    m.depth ≤ (m.start calls a).machine.depth := by
  unfold start
  split
  · exact Nat.le_refl _
  · exact Nat.le_succ _

theorem le_depth_proceed (calls : List Activation) (layer : Layer) (effect : Effect) :
    effect.machine.depth ≤ (proceed calls layer effect).machine.depth := by
  cases effect with
  | settled outcome => cases outcome <;> exact Nat.le_refl _
  | enter code m => exact m.le_depth_start calls _
  | pass code count m => exact m.le_depth_start calls _

theorem le_depth_leave (m : Machine) (calls : List Activation) (entry : Entry) :
    m.depth ≤ (m.leave calls entry).machine.depth := by
  cases entry with
  | outer => exact Nat.le_refl _
  | call layer => exact Nat.le_refl _
  | pass layer code count =>
    rw [← (m.evolves_endPass code count).depth]
    exact le_depth_proceed calls layer _

theorem le_depth_step {base : Nat} {m : Machine} {calls : List Activation}
    (h : m.Counts base calls) : base ≤ (m.step calls).machine.depth := by
  cases calls with
  | nil => exact h.le_depth
  | cons a calls =>
    have ht := h.evolves (m.evolves_token a)
    simp only [step]
    split <;> rename_i heq <;> rw [heq] at ht
    · exact ht.le_depth
    · rename_i t b n
      split
      · exact Nat.le_trans ht.closed.le_depth (le_depth_leave _ _ _)
      · have hn := ht.evolves (n.evolves_meaning t)
        exact Nat.le_trans hn.le_depth (le_depth_proceed _ _ _)

theorem nested_raise {base : Nat} {m : Machine} {calls : List Activation}
    (h : m.Counts base calls) (e : Error) : (m.raise e calls).Nested base := by
  cases calls with
  | nil => exact fun _ => h.depth
  | cons a calls => exact h.closed

private theorem nested_ofOutcome {base : Nat} {o : Outcome Machine}
    (h : o.state.depth = base) : (Progress.ofOutcome o).Nested base := by
  cases o <;> exact fun _ => h

private theorem nested_popped {α : Type} {base : Nat} {m : Machine} (h : m.depth = base)
    (r : Except Cause α × Stack) : (m.popped r).Nested base := by
  obtain ⟨result, s⟩ := r
  cases result <;> exact fun _ => h

theorem nested_accept {base : Nat} {m : Machine} (h : m.depth = base) (r : Request) :
    (m.accept r).Nested base := by
  have hm : m.Counts base [] := ⟨h, fun hne => absurd rfl hne⟩
  cases r with
  | execute source => exact nested_start hm _
  | executeInput => exact nested_start hm _
  | call location w => exact nested_proceed (hm.evolves (m.evolves_performAction w.action)) _
  | addWord w => exact nested_ofOutcome ((m.evolves_addWord w).depth.trans h)
  | push v => exact nested_ofOutcome ((m.evolves_answer v).depth.trans h)
  | pop => exact nested_popped h _
  | popBoolean => exact nested_popped h _
  | popText => exact nested_popped h _
  | popQuotation => exact nested_popped h _
  | operate op =>
    exact nested_ofOutcome ((m.evolves_performAction (.primitive (.operate op))).depth.trans h)
  | outside console connection generator clock => exact fun _ => h

end Machine

namespace Progress

theorem Nested.next {base : Nat} {p : Progress} (h : p.Nested base) : p.next.Nested base := by
  cases p with
  | running m calls => exact Machine.nested_step h
  | raising e m calls => exact Machine.nested_raise h e
  | halted v m => exact h

theorem Nested.le_depth_next {base : Nat} {p : Progress} (h : p.Nested base)
    (hp : base ≤ p.machine.depth) : base ≤ p.next.machine.depth := by
  cases p with
  | running m calls => exact Machine.le_depth_step h
  | raising e m calls =>
    cases calls with
    | nil => exact hp
    | cons a calls =>
      have hcounts : m.closed.Counts base calls := h.closed
      exact hcounts.le_depth
  | halted v m => exact hp

theorem Nested.iterate {base : Nat} {p : Progress} (h : p.Nested base) (n : Nat) :
    (Progress.next^[n] p).Nested base := by
  induction n with
  | zero => exact h
  | succ n ih =>
    rw [Function.iterate_succ_apply']
    exact ih.next

theorem Nested.le_depth_iterate {base : Nat} {p : Progress} (h : p.Nested base)
    (hp : base ≤ p.machine.depth) (n : Nat) : base ≤ (Progress.next^[n] p).machine.depth := by
  induction n with
  | zero => exact hp
  | succ n ih =>
    rw [Function.iterate_succ_apply']
    exact (h.iterate n).le_depth_next ih

theorem Reachable.nested {s : Machine.Settings} {p : Progress} (h : p.Reachable s) :
    p.Nested 0 :=
  h.invariant (I := Nested 0) (fun _ => rfl) (fun _ => Nested.next)
    (fun _ _ r hv hm => Machine.nested_accept (hm hv) r)

theorem depth_of_ends_start {m n : Machine} {a : Activation} {v : Verdict}
    (h : (m.start [] a).Ends v n) (hv : v.returns) : n.depth = m.depth := by
  obtain ⟨k, hk⟩ := h
  have hm : m.Counts m.depth [] := ⟨rfl, fun hne => absurd rfl hne⟩
  have hn := (Machine.nested_start hm a).iterate k
  rw [hk] at hn
  exact hn hv

theorem Nested.length_calls_le {p : Progress} (h : p.Nested 0) :
    p.calls.length ≤ p.machine.maxNesting := by
  cases p with
  | running m calls => exact h.length_le
  | raising e m calls => exact h.length_le
  | halted v m => exact Nat.zero_le _

end Progress

theorem Machine.maxNesting_bare_pos (s : Machine.Settings) : 0 < (Machine.bare s).maxNesting := by
  simp only [bare, ofSettings, defaultMaxNesting]
  split <;> omega

namespace Progress

theorem Reachable.depth_lt {s : Machine.Settings} {v : Verdict} {m : Machine}
    (h : (halted v m).Reachable s) (hv : v.returns) : m.depth < m.maxNesting := by
  have hdepth : m.depth = 0 := h.nested hv
  have hlimit : m.maxNesting = (Machine.bare s).maxNesting := h.later_bare.follows.maxNesting
  have hpos := Machine.maxNesting_bare_pos s
  omega

/-- In every reachable state the stack holds at most what it was made for, its capacity and the
nesting limit are those the machine was made with, and no more texts are running than the limit
allows.  A text that is run at any depth, above any activations, and that returns, with success or
with any error, returns to them with the depth it found.  So the depth is zero whenever a request
has returned, and the next source is run. -/
theorem resources_bounded {s : Machine.Settings} {p : Progress} (hp : p.Reachable s) :
    p.machine.stack.size ≤ (Machine.bare s).stack.capacity ∧
    p.machine.stack.capacity = (Machine.bare s).stack.capacity ∧
    p.machine.maxNesting = (Machine.bare s).maxNesting ∧
    p.calls.length ≤ (Machine.bare s).maxNesting ∧
    p.Nested 0 ∧
    (∀ (m n : Machine) (calls : List Activation) (a : Activation) (v : Verdict),
      (m.start [] a).Ends v n → v.returns →
      n.depth = m.depth ∧ ∃ k, next^[k] (m.start calls a) = (halted v n).above calls) ∧
    (∀ v m, p = .halted v m → v.returns → m.depth = 0 ∧ ∀ source,
      m.accept (.execute source) =
        .running m.opened [{ entry := .outer, cursor := .ofSource source }]) := by
  have hf := hp.later_bare.follows
  have hn := hp.nested
  refine ⟨?_, hf.capacity, hf.maxNesting, ?_, hn, ?_, ?_⟩
  · have hc : p.machine.stack.capacity = (Machine.bare s).stack.capacity := hf.capacity
    rw [← hc]
    exact Nat.le_add_right _ _
  · have hl : p.machine.maxNesting = (Machine.bare s).maxNesting := hf.maxNesting
    rw [← hl]
    exact hn.length_calls_le
  · intro m n calls a v hends hv
    have hstart : m.start calls a = (m.start [] a).above calls := m.start_append [] calls a
    rw [hstart]
    exact ⟨depth_of_ends_start hends hv, hends.exists_iterate_above calls⟩
  · rintro v m rfl hv
    have hd : m.depth = 0 := hn hv
    refine ⟨hd, fun source => ?_⟩
    have hl : m.maxNesting = (Machine.bare s).maxNesting := hf.maxNesting
    have hpos := Machine.maxNesting_bare_pos s
    rw [Machine.accept, Machine.start, if_neg]
    omega

/-- A quotation that runs inside a source: two texts are running, which is as many as may be. -/
theorem resources_bounded_inside_do :
    let p := next^[2] ((Machine.bare { capacity := 2, maxNesting := 2 }).accept
      (.execute (.ofText "[1] do")))
    p.calls.length = 2 ∧ p.calls.length ≤ 2 ∧ p.machine.stack.size ≤ 2 := by
  intro p
  have hreachable : p.Reachable { capacity := 2, maxNesting := 2 } :=
    ⟨_, .bare, later_of_request rfl (later_iterate _ 2)⟩
  have hbounded := resources_bounded hreachable
  exact ⟨by decide, hbounded.2.2.2.1, hbounded.1⟩

end Progress

end StackScript
