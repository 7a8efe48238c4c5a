import StackScript.Proofs.ErrorChain
import StackScript.Proofs.InputLines
import StackScript.Proofs.StreamReading
/-!
# Where failures come up

A failure of input or output gets into a run by a source that cannot be read to its end, or by a call
of a primitive.  Where every text that is running can be read to its end, it is always a call: a run
ends with a failure exactly if one of its calls fails with it (`Progress.failed_iff_exists_call`), and
the error names the words through which that call was reached (`Progress.verdict_of_failsWith`).
-/

namespace StackScript

/-- Whether the text can be read to its end. -/
def Activation.Reliable (a : Activation) : Prop :=
  a.cursor.source.failure = none

def Call.FailsWith (call : Call) (f : Failure) : Prop :=
  ∃ n, call.primitive.perform call.machine = .settled (.failed (.failure f) n)

/-- The error that comes out of a run when a call of it fails. -/
def Call.raised (call : Call) (f : Failure) : Error :=
  ((Error.ofCause (.failure f)).within call.layer).through call.calls

theorem Call.cause_raised (call : Call) (f : Failure) : (call.raised f).cause = .failure f :=
  Error.cause_through _ _

namespace Machine

variable {m n : Machine} {calls : List Activation} {a b : Activation} {cause : Cause} {f : Failure}

theorem exists_cursor_of_reliable (m : Machine) (h : a.Reliable) :
    ∃ c : Cursor, c.source.failure = none ∧
      c.token = ((m.token a).1, (m.token a).2.1.cursor) := by
  obtain ⟨c, rfl | hinput, hread⟩ := m.exists_cursor_token a
  · exact ⟨a.cursor, h, hread⟩
  · exact ⟨c, by rw [hinput]; rfl, hread⟩

theorem exists_malformed_of_token (ha : a.Reliable) (h : m.token a = (.error cause, b, n)) :
    ∃ problem location, cause = .malformed problem location := by
  obtain ⟨c, hfailure, htoken⟩ := m.exists_cursor_of_reliable ha
  rw [h] at htoken
  exact Cursor.exists_malformed_of_token hfailure htoken

theorem not_blames_start (m : Machine) (calls : List Activation) (a : Activation) (f : Failure) :
    ¬ (m.start calls a).Blames (.failure f) := by
  unfold start
  split
  · intro h
    have hcause := (Error.cause_enclose _ _).symm.trans h
    cases hcause
  · exact fun h => h

theorem exists_failed_of_blames {layer : Layer} {effect : Effect}
    (h : (proceed calls layer effect).Blames (.failure f)) :
    ∃ n, effect = .settled (.failed (.failure f) n) := by
  cases effect with
  | settled outcome =>
    cases outcome with
    | done n => exact h.elim
    | failed cause n =>
      obtain rfl : cause = .failure f := h
      exact ⟨n, rfl⟩
    | aborted fault n =>
      obtain ⟨e, he, -⟩ := h
      cases he
  | enter code n => exact absurd h (n.not_blames_start _ _ f)
  | pass code count n => exact absurd h (n.not_blames_start _ _ f)

theorem not_blames_leave (m : Machine) (calls : List Activation) (entry : Entry) (f : Failure) :
    ¬ (m.leave calls entry).Blames (.failure f) := by
  intro h
  cases entry with
  | outer => exact h
  | call layer => exact h
  | pass layer code count =>
    obtain ⟨n, hfailed⟩ := exists_failed_of_blames h
    have hsort := m.failsOnly_endPass code count
    rw [hfailed] at hsort
    cases hsort

theorem exists_primitive_of_failed {t : Token}
    (h : (m.meaning t).2 = .settled (.failed (.failure f) n)) : ∃ p, m.primitive? t = some p := by
  rcases m.meaning_cases t with ⟨name, w, hform, hfind, hmeaning⟩ | ⟨outcome, hmeaning⟩
  · rw [hmeaning] at h
    cases haction : w.action with
    | primitive p => exact ⟨p, by simp only [primitive?, hform, hfind, haction]⟩
    | script body =>
      rw [haction] at h
      cases h
  · rw [hmeaning] at h
    cases h
    rcases cause_of_meaning hmeaning with hcause | ⟨name, hcause⟩ <;> cases hcause

end Machine

theorem Activation.lasting_reliable : Activation.Lasting Activation.Reliable where
  text _ _ := rfl
  token m a h := by
    obtain ⟨c, hfailure, htoken⟩ := m.exists_cursor_of_reliable h
    have hafter : (m.token a).2.1.cursor = c.skip c.lexeme := by
      rw [← Cursor.token_snd hfailure, htoken]
    rw [Reliable, hafter, Cursor.failure_skip]
    exact hfailure

namespace Progress

variable {p : Progress} {f : Failure} {call : Call} {v : Verdict} {e : Error} {m : Machine}

theorem exists_call_of_blames_next (hp : p.Throughout Activation.Reliable)
    (hcalm : ¬ p.Blames (.failure f)) (h : p.next.Blames (.failure f)) :
    ∃ call, p.call? = some call ∧ call.FailsWith f := by
  cases p with
  | halted v m => exact absurd h hcalm
  | raising e m calls =>
    cases calls with
    | nil =>
      obtain ⟨e', he, hcause⟩ := h
      cases he
      exact absurd hcause hcalm
    | cons a calls => exact absurd ((Error.cause_enclose _ _).symm.trans h) hcalm
  | running m calls =>
    cases calls with
    | nil =>
      obtain ⟨e, he, -⟩ := h
      cases he
    | cons a calls =>
      have hreliable : a.Reliable := (List.forall_mem_cons.mp hp).1
      simp only [Progress.next, Machine.step] at h
      simp only [call?]
      rcases htoken : m.token a with ⟨result, b, n⟩
      rw [htoken] at h
      cases result with
      | error cause =>
        obtain ⟨problem, location, rfl⟩ := Machine.exists_malformed_of_token hreliable htoken
        cases h
      | ok t =>
        dsimp only at h
        split at h
        · exact absurd h (n.closed.not_blames_leave calls b.entry f)
        · obtain ⟨k, hfailed⟩ := Machine.exists_failed_of_blames h
          obtain ⟨primitive, hprimitive⟩ := Machine.exists_primitive_of_failed hfailed
          rw [Machine.meaning_of_primitive? hprimitive] at hfailed
          refine ⟨⟨primitive, n, (n.meaning t).1, b :: calls⟩, ?_, k, hfailed⟩
          dsimp only
          rw [hprimitive, Option.map_some]

theorem exists_ends_of_failsWith (hcall : p.call? = some call) (h : call.FailsWith f) :
    ∃ m, p.Ends (.failed (call.raised f)) m := by
  obtain ⟨n, hperform⟩ := h
  have hnext := (next_of_call? hcall).1
  rw [Call.next, hperform] at hnext
  obtain ⟨m, hends, -⟩ :=
    exists_ends_through ((Error.ofCause (.failure f)).within call.layer) n call.calls
  refine ⟨m, ends_next_iff.mp ?_⟩
  rw [hnext]
  exact hends

/-- The error of a run in which a call fails is the one that comes out of that call. -/
theorem verdict_of_failsWith {k : Nat} (hends : p.Ends v m)
    (hcall : (next^[k] p).call? = some call) (h : call.FailsWith f) :
    v = .failed (call.raised f) := by
  obtain ⟨n, hraised⟩ := exists_ends_of_failsWith hcall h
  exact (Ends.unique hends hraised.of_iterate).1

/-- Let every text that is running be one that can be read to its end.  A run that ends has failed
with a failure of input or output exactly if one of its calls fails with it. -/
theorem failed_iff_exists_call (hp : p.Throughout Activation.Reliable)
    (hcalm : ¬ p.Blames (.failure f)) (hends : p.Ends v m) :
    (∃ e, v = .failed e ∧ e.cause = .failure f) ↔
      ∃ k call, (next^[k] p).call? = some call ∧ call.FailsWith f := by
  constructor
  · rintro ⟨e, rfl, hcause⟩
    obtain ⟨n, hn⟩ := hends
    induction n generalizing p with
    | zero =>
      obtain rfl : p = .halted (.failed e) m := hn
      exact absurd ⟨e, rfl, hcause⟩ hcalm
    | succ n ih =>
      by_cases hblames : p.next.Blames (.failure f)
      · obtain ⟨call, hcall, hfails⟩ := exists_call_of_blames_next hp hcalm hblames
        exact ⟨0, call, hcall, hfails⟩
      · obtain ⟨k, call, hcall, hfails⟩ := ih (hp.next Activation.lasting_reliable) hblames hn
        exact ⟨k + 1, call, hcall, hfails⟩
  · rintro ⟨k, call, hcall, hfails⟩
    exact ⟨_, verdict_of_failsWith hends hcall hfails, call.cause_raised f⟩

end Progress

end StackScript
