import Mathlib.Logic.Function.Iterate
import StackScript.Machine.Step
/-!
# Runs as sequences of steps

A run is the iteration of `Progress.next`.  `Progress.Ends` says how it ends, without a bound on the
number of steps.  A step looks at the innermost activation only, so a run that takes place above
other activations is the run alone, followed by the run of those others (`Progress.ends_above_iff`).
-/

namespace StackScript

/-- Whether a call with this verdict returns to its caller. -/
def Verdict.returns : Verdict → Bool
  | .done => true
  | .failed _ => true
  | .aborted _ => false
  | .unfinished => false

theorem Verdict.ne_unfinished {v : Verdict} (h : v.returns) : v ≠ .unfinished := by
  rintro rfl
  cases h

namespace Error

/-- An error as it comes out of some activations, the innermost first. -/
def through (e : Error) : List Activation → Error
  | [] => e
  | a :: calls => (a.entry.enclose e).through calls

theorem cause_enclose (e : Error) (entry : Entry) : (entry.enclose e).cause = e.cause := by
  cases entry <;> rfl

theorem cause_through (e : Error) (calls : List Activation) :
    (e.through calls).cause = e.cause := by
  induction calls generalizing e with
  | nil => rfl
  | cons a calls ih => rw [through, ih, cause_enclose]

end Error

namespace Progress

/-- The run comes to an end with the given verdict, in the given machine. -/
def Ends (p : Progress) (v : Verdict) (m : Machine) : Prop :=
  ∃ n, next^[n] p = .halted v m

theorem iterate_next_halted (n : Nat) (v : Verdict) (m : Machine) :
    next^[n] (.halted v m) = .halted v m :=
  Function.iterate_fixed rfl n

theorem ends_halted_iff {v w : Verdict} {m n : Machine} :
    (halted w n).Ends v m ↔ w = v ∧ n = m := by
  constructor
  · rintro ⟨k, hk⟩
    rw [iterate_next_halted] at hk
    exact halted.inj hk
  · rintro ⟨rfl, rfl⟩
    exact ⟨0, rfl⟩

theorem ends_next_iff {p : Progress} {v : Verdict} {m : Machine} :
    p.next.Ends v m ↔ p.Ends v m := by
  constructor
  · rintro ⟨n, hn⟩
    exact ⟨n + 1, hn⟩
  · rintro ⟨n, hn⟩
    refine ⟨n, ?_⟩
    rw [← Function.iterate_succ_apply, Function.iterate_succ_apply', hn]
    rfl

theorem run_add (n fuel : Nat) (p : Progress) : run (n + fuel) p = run fuel (next^[n] p) := by
  induction n generalizing p with
  | zero => rw [Nat.zero_add, Function.iterate_zero_apply]
  | succ n ih => rw [Nat.succ_add, run_succ, ih, Function.iterate_succ_apply]

theorem iterate_of_run {fuel : Nat} {p : Progress} {v : Verdict} {m : Machine}
    (h : p.run fuel = (v, m)) (hv : v ≠ .unfinished) : next^[fuel] p = .halted v m := by
  induction fuel generalizing p with
  | zero =>
    cases p with
    | running n calls => exact absurd (congrArg Prod.fst h).symm hv
    | raising e n calls => exact absurd (congrArg Prod.fst h).symm hv
    | halted w n =>
      rw [run_halted, Prod.mk.injEq] at h
      rw [Function.iterate_zero_apply, h.1, h.2]
  | succ fuel ih =>
    rw [run_succ] at h
    exact ih h

theorem run_of_iterate {fuel : Nat} {p : Progress} {v : Verdict} {m : Machine}
    (h : next^[fuel] p = .halted v m) : p.run fuel = (v, m) := by
  have hr := run_add fuel 0 p
  rw [h, run_halted] at hr
  exact hr

theorem ends_of_run {fuel : Nat} {p : Progress} {v : Verdict} {m : Machine}
    (h : p.run fuel = (v, m)) (hv : v ≠ .unfinished) : p.Ends v m :=
  ⟨fuel, iterate_of_run h hv⟩

theorem run_add_of_eq {fuel : Nat} {p : Progress} {v : Verdict} {m : Machine}
    (h : p.run fuel = (v, m)) (hv : v ≠ .unfinished) (more : Nat) :
    p.run (fuel + more) = (v, m) := by
  rw [← h]
  exact run_add_of_ne_unfinished (by rw [h]; exact hv) more

theorem Ends.exists_run {p : Progress} {v : Verdict} {m : Machine} (h : p.Ends v m) :
    ∃ fuel, ∀ more, p.run (fuel + more) = (v, m) := by
  obtain ⟨n, hn⟩ := h
  refine ⟨n, fun more => ?_⟩
  rw [run_add, hn, run_halted]

theorem Ends.unique {p : Progress} {v w : Verdict} {m n : Machine} (h : p.Ends v m)
    (h' : p.Ends w n) : v = w ∧ m = n := by
  obtain ⟨fuel, hfuel⟩ := h.exists_run
  obtain ⟨fuel', hfuel'⟩ := h'.exists_run
  have hsame := hfuel fuel'
  rw [Nat.add_comm, hfuel' fuel, Prod.mk.injEq] at hsame
  exact ⟨hsame.1.symm, hsame.2.symm⟩

theorem ends_iff_exists_run {p : Progress} {v : Verdict} {m : Machine} (hv : v ≠ .unfinished) :
    p.Ends v m ↔ ∃ fuel, p.run fuel = (v, m) := by
  constructor
  · intro h
    obtain ⟨fuel, hf⟩ := h.exists_run
    exact ⟨fuel, hf 0⟩
  · rintro ⟨fuel, hf⟩
    exact ends_of_run hf hv

/-- An error comes out of all activations with the layers that they add, and on its way nothing but
the count of the running texts changes. -/
theorem exists_ends_through (e : Error) (m : Machine) (calls : List Activation) :
    ∃ n, (raising e m calls).Ends (.failed (e.through calls)) n ∧
      n = { m with depth := n.depth } := by
  induction calls generalizing e m with
  | nil => exact ⟨m, ⟨1, rfl⟩, rfl⟩
  | cons a calls ih =>
    obtain ⟨n, hends, hn⟩ := ih (a.entry.enclose e) m.closed
    exact ⟨n, ends_next_iff.mp hends, hn⟩

theorem exists_ends_raising (e : Error) (m : Machine) (calls : List Activation) :
    ∃ f n, (raising e m calls).Ends (.failed f) n ∧ f.cause = e.cause ∧
      n = { m with depth := n.depth } := by
  obtain ⟨n, hends, hn⟩ := exists_ends_through e m calls
  exact ⟨e.through calls, n, hends, e.cause_through calls, hn⟩

/-- An error with the given cause is on its way out, or has come out. -/
def Blames (cause : Cause) : Progress → Prop
  | .running _ _ => False
  | .raising e _ _ => e.cause = cause
  | .halted v _ => ∃ e, v = .failed e ∧ e.cause = cause

theorem Blames.next {cause : Cause} {p : Progress} (h : p.Blames cause) :
    p.next.Blames cause := by
  cases p with
  | running m calls => exact h.elim
  | raising e m calls =>
    cases calls with
    | nil => exact ⟨e, rfl, h⟩
    | cons a calls =>
      obtain ⟨entry, cursor, shared⟩ := a
      cases entry <;> exact h
  | halted v m => exact h

theorem Blames.iterate {cause : Cause} {p : Progress} (h : p.Blames cause) (n : Nat) :
    (Progress.next^[n] p).Blames cause := by
  induction n with
  | zero => exact h
  | succ n ih =>
    rw [Function.iterate_succ_apply']
    exact ih.next

theorem Blames.exists_failed {cause : Cause} {p : Progress} {k n : Nat} {v : Verdict} {m : Machine}
    (h : (Progress.next^[k] p).Blames cause) (hk : k ≤ n)
    (hend : Progress.next^[n] p = .halted v m) : ∃ e, v = .failed e ∧ e.cause = cause := by
  have hlast := h.iterate (n - k)
  rw [← Function.iterate_add_apply, Nat.sub_add_cancel hk, hend] at hlast
  exact hlast

theorem Blames.exists_ends {cause : Cause} {p : Progress} (h : p.Blames cause) :
    ∃ e m, p.Ends (.failed e) m ∧ e.cause = cause := by
  cases p with
  | running m calls => exact h.elim
  | raising e m calls =>
    obtain ⟨f, n, hends, hcause, -⟩ := exists_ends_raising e m calls
    exact ⟨f, n, hends, hcause.trans h⟩
  | halted v m =>
    obtain ⟨e, rfl, hcause⟩ := h
    exact ⟨e, m, ⟨0, rfl⟩, hcause⟩

theorem Ends.of_iterate {p : Progress} {n : Nat} {v : Verdict} {m : Machine}
    (h : (next^[n] p).Ends v m) : p.Ends v m := by
  obtain ⟨k, hk⟩ := h
  exact ⟨k + n, by rw [Function.iterate_add_apply, hk]⟩

/-- The largest value that a measure takes in the first steps of a run, its start included. -/
def peak (measure : Progress → Nat) : Nat → Progress → Nat
  | 0, p => measure p
  | n + 1, p => max (measure p) (peak measure n p.next)

theorem le_peak (measure : Progress → Nat) {k n : Nat} (hk : k ≤ n) (p : Progress) :
    measure (next^[k] p) ≤ peak measure n p := by
  induction n generalizing k p with
  | zero =>
    obtain rfl := Nat.le_zero.mp hk
    exact Nat.le_refl _
  | succ n ih =>
    cases k with
    | zero => exact Nat.le_max_left _ _
    | succ k => exact Nat.le_trans (ih (Nat.le_of_succ_le_succ hk) p.next) (Nat.le_max_right _ _)

theorem exists_eq_peak (measure : Progress → Nat) (n : Nat) (p : Progress) :
    ∃ k ≤ n, measure (next^[k] p) = peak measure n p := by
  induction n generalizing p with
  | zero => exact ⟨0, Nat.le_refl 0, rfl⟩
  | succ n ih =>
    obtain ⟨k, hk, hpeak⟩ := ih p.next
    rcases Nat.le_total (peak measure n p.next) (measure p) with hle | hle
    · exact ⟨0, Nat.zero_le _, (Nat.max_eq_left hle).symm⟩
    · exact ⟨k + 1, Nat.succ_le_succ hk, hpeak.trans (Nat.max_eq_right hle).symm⟩

/-- A run as it goes on above other activations, to which it returns. -/
def above (outer : List Activation) : Progress → Progress
  | .running m calls => .running m (calls ++ outer)
  | .raising e m calls => .raising e m (calls ++ outer)
  | .halted .done m => .running m outer
  | .halted (.failed e) m => .raising e m outer
  | .halted (.aborted fault) m => .halted (.aborted fault) m
  | .halted .unfinished m => .halted .unfinished m

end Progress

namespace Machine

theorem exists_cursor_token (m : Machine) (a : Activation) :
    ∃ c : Cursor, (c = a.cursor ∨ c.source = .ofBytes m.console.input) ∧
      c.token = ((m.token a).1, (m.token a).2.1.cursor) := by
  unfold token
  split
  · exact ⟨{ a.cursor with source := .ofBytes m.console.input }, .inr rfl, rfl⟩
  · exact ⟨a.cursor, .inl rfl, rfl⟩

theorem meaning_cases (m : Machine) (t : Token) :
    (∃ name w, t.form = .call name ∧ m.dictionary.find? name = some w ∧
      m.meaning t = (⟨t.location, some name⟩, w.action.perform m)) ∨
    ∃ outcome, m.meaning t = (⟨t.location, none⟩, .settled outcome) := by
  unfold meaning
  split
  · exact .inr ⟨_, rfl⟩
  · exact .inr ⟨_, rfl⟩
  · exact .inr ⟨_, rfl⟩
  · exact .inr ⟨_, rfl⟩
  · exact .inr ⟨_, rfl⟩
  · rename_i name hform
    split
    · rename_i w hfind
      exact .inl ⟨name, w, hform, hfind, rfl⟩
    · exact .inr ⟨_, rfl⟩

theorem start_append (m : Machine) (calls outer : List Activation) (a : Activation) :
    m.start (calls ++ outer) a = (m.start calls a).above outer := by
  unfold start
  split <;> rfl

theorem proceed_append (calls outer : List Activation) (layer : Layer) (effect : Effect) :
    proceed (calls ++ outer) layer effect = (proceed calls layer effect).above outer := by
  cases effect with
  | settled outcome => cases outcome <;> rfl
  | enter code m => exact start_append m calls outer _
  | pass code count m => exact start_append m calls outer _

theorem obey_append (m : Machine) (calls outer : List Activation) (t : Token) :
    m.obey (calls ++ outer) t = (m.obey calls t).above outer :=
  proceed_append calls outer _ _

theorem leave_append (m : Machine) (calls outer : List Activation) (entry : Entry) :
    m.leave (calls ++ outer) entry = (m.leave calls entry).above outer := by
  cases entry with
  | outer => rfl
  | call layer => rfl
  | pass layer code count => exact proceed_append calls outer _ _

/-- A step of the innermost text does not depend on the activations below it. -/
theorem step_append (m : Machine) (a : Activation) (calls outer : List Activation) :
    m.step (a :: calls ++ outer) = (m.step (a :: calls)).above outer := by
  simp only [step, List.cons_append]
  cases m.token a with
  | mk result rest =>
    obtain ⟨b, n⟩ := rest
    cases result with
    | error cause => rfl
    | ok t =>
      dsimp only
      split
      · exact leave_append n.closed calls outer b.entry
      · exact obey_append n (b :: calls) outer t

theorem raise_append (m : Machine) (e : Error) (a : Activation) (calls outer : List Activation) :
    m.raise e (a :: calls ++ outer) = (m.raise e (a :: calls)).above outer :=
  rfl

end Machine

namespace Progress

theorem next_above (p : Progress) (outer : List Activation) :
    (p.above outer).next = p.next.above outer ∨
      ∃ v m, p.next = .halted v m ∧ p.above outer = (halted v m).above outer := by
  cases p with
  | running m calls =>
    cases calls with
    | nil => exact .inr ⟨.done, m, rfl, rfl⟩
    | cons a calls => exact .inl (m.step_append a calls outer)
  | raising e m calls =>
    cases calls with
    | nil => exact .inr ⟨.failed e, m, rfl, rfl⟩
    | cons a calls => exact .inl (m.raise_append e a calls outer)
  | halted v m => exact .inr ⟨v, m, rfl, rfl⟩

/-- A run above other activations returns to them with the verdict it has alone. -/
theorem Ends.exists_iterate_above {p : Progress} {v : Verdict} {m : Machine} (h : p.Ends v m)
    (outer : List Activation) :
    ∃ n, next^[n] (p.above outer) = (halted v m).above outer := by
  obtain ⟨k, hk⟩ := h
  induction k generalizing p with
  | zero => exact ⟨0, congrArg (above outer) hk⟩
  | succ k ih =>
    rw [Function.iterate_succ_apply] at hk
    rcases p.next_above outer with hs | ⟨w, n, hp, hs⟩
    · obtain ⟨n, hn⟩ := ih hk
      exact ⟨n + 1, by rw [Function.iterate_succ_apply, hs, hn]⟩
    · rw [hp, iterate_next_halted] at hk
      exact ⟨0, by rw [Function.iterate_zero_apply, hs, hk]⟩

theorem exists_iterate_of_above {p : Progress} {outer : List Activation} {v : Verdict} {m : Machine}
    {k : Nat} (h : next^[k] (p.above outer) = .halted v m) :
    ∃ w n, p.Ends w n ∧ ∃ j ≤ k, next^[j] ((halted w n).above outer) = .halted v m := by
  induction k generalizing p with
  | zero =>
    cases p with
    | running n calls => cases h
    | raising e n calls => cases h
    | halted w n => exact ⟨w, n, ⟨0, rfl⟩, 0, Nat.le_refl 0, h⟩
  | succ k ih =>
    rcases p.next_above outer with hs | ⟨w, n, hp, hs⟩
    · rw [Function.iterate_succ_apply, hs] at h
      obtain ⟨w, n, hp, j, hj, hw⟩ := ih h
      exact ⟨w, n, ends_next_iff.mp hp, j, Nat.le_succ_of_le hj, hw⟩
    · exact ⟨w, n, ⟨1, hp⟩, k + 1, Nat.le_refl _, hs ▸ h⟩

/-- A run above other activations is the run alone, followed by the run of the others. -/
theorem ends_above_iff {p : Progress} {outer : List Activation} {v : Verdict} {m : Machine} :
    (p.above outer).Ends v m ↔
      ∃ w n, p.Ends w n ∧ ((halted w n).above outer).Ends v m := by
  constructor
  · rintro ⟨k, hk⟩
    obtain ⟨w, n, hp, j, -, hw⟩ := exists_iterate_of_above hk
    exact ⟨w, n, hp, j, hw⟩
  · rintro ⟨w, n, hp, j, hj⟩
    obtain ⟨k, hk⟩ := hp.exists_iterate_above outer
    exact ⟨j + k, by rw [Function.iterate_add_apply, hk, hj]⟩

end Progress

end StackScript
