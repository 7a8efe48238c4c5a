import StackScript.Proofs.Nesting
import StackScript.Proofs.TokenList
/-!
# What a call comes to

A token that calls a word may set off any number of runs of texts.  Each of them ends as it would if
it were asked for from outside.  A repeated text is a chain of passes, each but the last one
successful (`Effect.Turns`), and the last part of the chain decides the verdict
(`Effect.Concludes`).  The layer of the call does nothing but enclose the error that comes out of it
(`Machine.ends_proceed_iff`).
-/

namespace StackScript

/-- The verdict on a call whose layer encloses the errors that come out of it. -/
def Verdict.within (layer : Layer) : Verdict → Verdict
  | .done => .done
  | .failed e => .failed (e.within layer)
  | .aborted fault => .aborted fault
  | .unfinished => .unfinished

def Outcome.verdict {σ : Type} : Outcome σ → Verdict
  | .done _ => .done
  | .failed cause _ => .failed (.ofCause cause)
  | .aborted fault _ => .aborted fault

namespace Progress

/-- How a run goes on when a text has ended that was entered in the given way and by nothing that
is still running. -/
def returning (entry : Entry) : Verdict → Machine → Progress
  | .done, m => m.leave [] entry
  | .failed e, m => .raising (entry.enclose e) m []
  | .aborted fault, m => .halted (.aborted fault) m
  | .unfinished, m => .halted .unfinished m

variable {entry : Entry} {c after : Cursor} {t : Token} {m n q : Machine} {v w : Verdict}

theorem ends_raising_nil_iff {e : Error} :
    (raising e m []).Ends v n ↔ v = .failed e ∧ n = m := by
  rw [← ends_next_iff]
  have hhalted : (raising e m []).next = halted (.failed e) m := rfl
  rw [hhalted, ends_halted_iff, eq_comm, @eq_comm _ m]

theorem next_text_of_error {cause : Cause} (htoken : c.token = (.error cause, after)) :
    (running m [{ entry, cursor := c }]).next =
      raising (.ofCause cause) m [{ entry, cursor := after }] := by
  simp [next, Machine.step, Machine.token, htoken]

theorem next_text_of_end (htoken : c.token = (.ok t, after)) (ht : t.form = .endOfInput) :
    (running m [{ entry, cursor := c }]).next = m.closed.leave [] entry := by
  simp [next, Machine.step, Machine.token, htoken, ht]

theorem next_text_of_token (htoken : c.token = (.ok t, after)) (ht : t.form ≠ .endOfInput) :
    (running m [{ entry, cursor := c }]).next =
      (m.obey [] t).above [{ entry, cursor := after }] := by
  rw [← Machine.obey_append, List.nil_append]
  simp [next, Machine.step, Machine.token, htoken, ht]

theorem iterate_above_text {k : Nat} (hw : w ≠ .done)
    (h : next^[k] ((halted w q).above [{ entry, cursor := c }]) = halted v n) :
    ∃ j ≤ k, next^[j] (returning entry w (if w.returns then q.closed else q)) = halted v n := by
  cases w with
  | done => exact absurd rfl hw
  | failed e =>
    cases k with
    | zero => cases h
    | succ k => exact ⟨k, Nat.le_succ k, h⟩
  | aborted fault => exact ⟨k, Nat.le_refl k, h⟩
  | unfinished => exact ⟨k, Nat.le_refl k, h⟩

/-- A text that ends has a verdict of its own, the one it would have if it were asked for from
outside, and what comes after it takes fewer steps. -/
theorem exists_iterate_returning {k : Nat}
    (h : next^[k] (running m [{ entry, cursor := c }]) = halted v n) :
    ∃ w q, (running m [{ entry := .outer, cursor := c }]).Ends w q ∧
      ∃ j < k, next^[j] (returning entry w q) = halted v n := by
  induction c using Cursor.token_induction generalizing m k with
  | step c ih =>
    cases k with
    | zero => cases h
    | succ k =>
      rw [Function.iterate_succ_apply] at h
      rcases htoken : c.token with ⟨result, after⟩
      cases result with
      | error cause =>
        rw [next_text_of_error htoken] at h
        obtain ⟨j, hj, hreturn⟩ := iterate_above_text (w := .failed (.ofCause cause)) (by simp) h
        refine ⟨_, _, ?_, j, Nat.lt_succ_of_le hj, hreturn⟩
        rw [← ends_next_iff, next_text_of_error htoken, ends_raising_outer_iff]
        exact ⟨rfl, rfl⟩
      | ok t =>
        by_cases ht : t.form = .endOfInput
        · rw [next_text_of_end htoken ht] at h
          refine ⟨.done, m.closed, ?_, k, Nat.lt_succ_self k, h⟩
          rw [← ends_next_iff, next_text_of_end htoken ht]
          exact ends_running_nil_iff.mpr ⟨rfl, rfl⟩
        · rw [next_text_of_token htoken ht] at h
          obtain ⟨w, q, hobey, i, hi, hrest⟩ := exists_iterate_of_above h
          by_cases hw : w = .done
          · subst hw
            obtain ⟨w, r, hends, j, hj, hreturn⟩ := ih t after htoken ht hrest
            refine ⟨w, r, ?_, j, by omega, hreturn⟩
            rw [← ends_next_iff, next_text_of_token htoken ht, ends_above_iff]
            exact ⟨.done, q, hobey, hends⟩
          · obtain ⟨j, hj, hreturn⟩ := iterate_above_text hw hrest
            refine ⟨w, _, ?_, j, by omega, hreturn⟩
            rw [← ends_next_iff, next_text_of_token htoken ht, ends_above_iff]
            exact ⟨w, q, hobey, (ends_above_outer_iff hw).mpr ⟨rfl, rfl⟩⟩

private theorem ends_above_text (hw : w ≠ .done)
    (h : (returning entry w (if w.returns then q.closed else q)).Ends v n) :
    ((halted w q).above [{ entry, cursor := c }]).Ends v n := by
  cases w with
  | done => exact absurd rfl hw
  | failed e => exact ends_next_iff.mp h
  | aborted fault => exact h
  | unfinished => exact h

theorem ends_text_of_returning (houter : (running m [{ entry := .outer, cursor := c }]).Ends w q)
    (hreturn : (returning entry w q).Ends v n) :
    (running m [{ entry, cursor := c }]).Ends v n := by
  induction c using Cursor.token_induction generalizing m with
  | step c ih =>
    rw [← ends_next_iff] at houter ⊢
    rcases htoken : c.token with ⟨result, after⟩
    cases result with
    | error cause =>
      rw [next_text_of_error htoken] at houter ⊢
      obtain ⟨rfl, rfl⟩ := ends_raising_outer_iff.mp houter
      exact ends_next_iff.mp hreturn
    | ok t =>
      by_cases ht : t.form = .endOfInput
      · rw [next_text_of_end htoken ht] at houter ⊢
        obtain ⟨rfl, rfl⟩ := ends_running_nil_iff.mp houter
        exact hreturn
      · rw [next_text_of_token htoken ht, ends_above_iff] at houter ⊢
        obtain ⟨u, r, hobey, hrest⟩ := houter
        refine ⟨u, r, hobey, ?_⟩
        by_cases hu : u = .done
        · subst hu
          exact ih t after htoken ht hrest
        · obtain ⟨rfl, rfl⟩ := (ends_above_outer_iff hu).mp hrest
          exact ends_above_text hu hreturn

end Progress

namespace Machine

open Progress

variable {entry : Entry} {c : Cursor} {m n q : Machine} {v w : Verdict}

private theorem start_of_le (h : m.maxNesting ≤ m.depth) :
    m.start [] { entry, cursor := c } =
      returning entry (.failed (.ofCause (.tooDeep m.maxNesting))) m :=
  if_pos h

private theorem start_of_not_le (h : ¬ m.maxNesting ≤ m.depth) :
    m.start [] { entry, cursor := c } = running m.opened [{ entry, cursor := c }] :=
  if_neg h

private theorem exists_iterate_of_start {k : Nat}
    (h : next^[k] (m.start [] { entry, cursor := c }) = halted v n) :
    ∃ w q, (m.start [] { entry := .outer, cursor := c }).Ends w q ∧
      ∃ j ≤ k, (w = .done → j < k) ∧ next^[j] (returning entry w q) = halted v n := by
  by_cases hlimit : m.maxNesting ≤ m.depth
  · rw [start_of_le hlimit] at h
    refine ⟨.failed (.ofCause (.tooDeep m.maxNesting)), m, ?_, k, Nat.le_refl k, by simp, h⟩
    rw [start_of_le hlimit]
    exact ends_raising_nil_iff.mpr ⟨rfl, rfl⟩
  · rw [start_of_not_le hlimit] at h ⊢
    obtain ⟨w, q, hends, j, hj, hreturn⟩ := exists_iterate_returning h
    exact ⟨w, q, hends, j, Nat.le_of_lt hj, fun _ => hj, hreturn⟩

private theorem ends_start_of_returning
    (houter : (m.start [] { entry := .outer, cursor := c }).Ends w q)
    (hreturn : (returning entry w q).Ends v n) :
    (m.start [] { entry, cursor := c }).Ends v n := by
  by_cases hlimit : m.maxNesting ≤ m.depth
  · rw [start_of_le hlimit] at houter ⊢
    obtain ⟨rfl, rfl⟩ := ends_raising_nil_iff.mp houter
    exact hreturn
  · rw [start_of_not_le hlimit] at houter ⊢
    exact ends_text_of_returning houter hreturn

/-- The source ends in this way if it is run from outside. -/
def SourceEnds (m : Machine) (source : Source) (v : Verdict) (n : Machine) : Prop :=
  (m.start [] { entry := .outer, cursor := .ofSource source }).Ends v n

theorem sourceEnds_iff_exists_execute {source : Source} (hv : v ≠ .unfinished) :
    m.SourceEnds source v n ↔ ∃ fuel, m.execute fuel source = (v, n) :=
  ends_iff_exists_run hv

theorem sourceEnds_iff_of_le {source : Source} (hm : m.maxNesting ≤ m.depth) :
    m.SourceEnds source v n ↔ v = .failed (.ofCause (.tooDeep m.maxNesting)) ∧ n = m := by
  rw [SourceEnds, start_of_le hm]
  exact ends_raising_nil_iff

/-- A source that may be run ends as its tokens do. -/
theorem sourceEnds_iff_tokensEnd {source : Source} (hm : m.depth < m.maxNesting) :
    m.SourceEnds source v n ↔
      m.opened.TokensEnd (Cursor.ofSource source).tokens.1 (Cursor.ofSource source).tokens.2
        v n := by
  rw [SourceEnds, start_of_not_le (Nat.not_le_of_lt hm), ends_running_iff_tokensEnd]

end Machine

/-- After some passes that succeed, each of which asks for another one, the effect is the last
one. -/
inductive Effect.Turns : Effect → Effect → Prop
  | refl (effect : Effect) : Turns effect effect
  | again {code : String} {count : Int64} {m n : Machine} {last : Effect}
      (hpass : m.SourceEnds (.ofText code) .done n) (hlast : Turns (n.endPass code count) last) :
      Turns (.pass code count m) last

/-- How an effect ends without another pass. -/
def Effect.Concludes : Effect → Verdict → Machine → Prop
  | .settled outcome, v, n => v = outcome.verdict ∧ n = outcome.state
  | .enter code m, v, n => m.SourceEnds (.ofText code) v n
  | .pass code _ m, v, n => v ≠ .done ∧ m.SourceEnds (.ofText code) v n

namespace Machine

open Progress

variable {layer : Layer} {m n : Machine} {v w : Verdict}

private theorem ends_returning_call_iff {q : Machine} :
    (returning (.call layer) w q).Ends v n ↔ v = w.within layer ∧ n = q := by
  cases w with
  | done => exact ends_running_nil_iff
  | failed e => exact ends_raising_nil_iff
  | aborted fault =>
    rw [returning, ends_halted_iff, eq_comm, @eq_comm _ n]
    rfl
  | unfinished =>
    rw [returning, ends_halted_iff, eq_comm, @eq_comm _ n]
    rfl

private theorem returning_pass {code : String} {count : Int64} {q : Machine} (hw : w ≠ .done) :
    returning (.pass layer code count) w q = returning (.call layer) w q := by
  cases w with
  | done => exact absurd rfl hw
  | failed e => rfl
  | aborted fault => rfl
  | unfinished => rfl

private theorem ends_proceed_settled_iff {outcome : Outcome Machine} :
    (proceed [] layer (.settled outcome)).Ends v n ↔
      v = outcome.verdict.within layer ∧ n = outcome.state := by
  cases outcome with
  | done m => exact ends_running_nil_iff
  | failed cause m => exact ends_raising_nil_iff
  | aborted fault m =>
    rw [proceed, ends_halted_iff, eq_comm, @eq_comm _ n]
    rfl

private theorem exists_turns_of_iterate {k : Nat} {effect : Effect}
    (h : next^[k] (proceed [] layer effect) = halted v n) :
    ∃ last w, effect.Turns last ∧ last.Concludes w n ∧ v = w.within layer := by
  induction k using Nat.strongRecOn generalizing effect with
  | ind k ih =>
    cases effect with
    | settled outcome =>
      obtain ⟨hv, hn⟩ := ends_proceed_settled_iff.mp ⟨k, h⟩
      exact ⟨.settled outcome, outcome.verdict, .refl _, ⟨rfl, hn⟩, hv⟩
    | enter code m =>
      obtain ⟨w, q, htext, j, -, -, hreturn⟩ := exists_iterate_of_start h
      obtain ⟨hv, rfl⟩ := ends_returning_call_iff.mp ⟨j, hreturn⟩
      exact ⟨.enter code m, w, .refl _, htext, hv⟩
    | pass code count m =>
      obtain ⟨w, q, htext, j, -, hfewer, hreturn⟩ := exists_iterate_of_start h
      by_cases hw : w = .done
      · subst hw
        obtain ⟨last, w, hlast, hconcludes, hv⟩ := ih j (hfewer rfl) hreturn
        exact ⟨last, w, .again htext hlast, hconcludes, hv⟩
      · rw [returning_pass hw] at hreturn
        obtain ⟨hv, rfl⟩ := ends_returning_call_iff.mp ⟨j, hreturn⟩
        exact ⟨.pass code count m, w, .refl _, ⟨hw, htext⟩, hv⟩

private theorem ends_proceed_of_concludes {effect : Effect} (h : effect.Concludes w n) :
    (proceed [] layer effect).Ends (w.within layer) n := by
  cases effect with
  | settled outcome =>
    obtain ⟨rfl, rfl⟩ := h
    exact ends_proceed_settled_iff.mpr ⟨rfl, rfl⟩
  | enter code m => exact ends_start_of_returning h (ends_returning_call_iff.mpr ⟨rfl, rfl⟩)
  | pass code count m =>
    obtain ⟨hw, htext⟩ := h
    refine ends_start_of_returning htext ?_
    rw [returning_pass hw]
    exact ends_returning_call_iff.mpr ⟨rfl, rfl⟩

/-- What is called ends as the last part of its effect does, with the layer of the call around an
error. -/
theorem ends_proceed_iff {effect : Effect} :
    (proceed [] layer effect).Ends v n ↔
      ∃ last w, effect.Turns last ∧ last.Concludes w n ∧ v = w.within layer := by
  constructor
  · rintro ⟨k, hk⟩
    exact exists_turns_of_iterate hk
  · rintro ⟨last, w, hturns, hconcludes, rfl⟩
    induction hturns with
    | refl effect => exact ends_proceed_of_concludes hconcludes
    | again hpass _ ih => exact ends_start_of_returning hpass (ih hconcludes)

private theorem evolves_of_ends {p : Progress} (hfollows : m.Follows p.machine)
    (hnested : p.Nested m.depth) (h : p.Ends v n) (hv : v.returns) : m.Evolves n := by
  refine ⟨hfollows.trans h.later.follows, ?_⟩
  obtain ⟨k, hk⟩ := h
  have hn := hnested.iterate k
  rw [hk] at hn
  exact hn hv

theorem SourceEnds.evolves {source : Source} (h : m.SourceEnds source v n) (hv : v.returns) :
    m.Evolves n :=
  evolves_of_ends (m.follows_start [] _) (nested_start ⟨rfl, fun hne => absurd rfl hne⟩ _) h hv

theorem evolves_of_ends_obey {t : Token} (h : (m.obey [] t).Ends v n) (hv : v.returns) :
    m.Evolves n := by
  have heffect := m.evolves_meaning t
  exact evolves_of_ends (heffect.toFollows.trans (follows_proceed [] _ _))
    (nested_proceed ⟨heffect.depth, fun hne => absurd rfl hne⟩ _) h hv

theorem Obeys.evolves {ts : List Token} (h : m.Obeys ts n) : m.Evolves n := by
  induction ts generalizing m with
  | nil =>
    cases h
    exact .refl _
  | cons t ts ih =>
    obtain ⟨k, hk, hrest⟩ := h
    exact (evolves_of_ends_obey hk rfl).trans (ih hrest)

end Machine

theorem Effect.Turns.evolves {effect last : Effect} (h : effect.Turns last) :
    effect.machine.Evolves last.machine := by
  induction h with
  | refl effect => exact .refl _
  | again hpass _ ih => exact ((hpass.evolves rfl).trans (Machine.evolves_endPass _ _ _)).trans ih

end StackScript
